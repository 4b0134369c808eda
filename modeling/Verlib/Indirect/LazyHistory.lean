import Verlib.Indirect.Lazy
import Verlib.Interleaving.Versions

/-!
# What a history says about the versions

The invariant of the history relates installations, returns and results of snapshots to the stamps of
versions and to the clock at their installation. The first, speculative run of a snapshot that has not been
aborted has only seen stamps below `local_stamp`; the second run may see `local_stamp` itself, but the clock
has passed it.
-/

namespace Verlib.Indirect.Lazy

open Interleaving

variable {P : Type} {V V' : Versions P (Option Nat)} {h es : List (Event P)} {ops : Nat}

/-- The `store` or `cas` with identity `op` has returned or will return true because of version `i` of `p`:
it installed this version, or it found its value there. -/
def Effect (h : List (Event P)) (op : Nat) (p : P) (i : Nat) : Prop :=
  .keep op p i ∈ h ∨ ∃ x, .install op p i x ∈ h

/-- The effects of a longer history. -/
theorem effect_append {op i : Nat} {p : P} :
    Effect (h ++ es) op p i ↔ Effect h op p i ∨ Effect es op p i := by
  simp only [Effect, List.mem_append, exists_or]
  tauto

/-- The call or the snapshot that an event belongs to. -/
def Event.id : Event P → Nat
  | .call op | .install op _ _ _ | .keep op _ _ | .ret op _ => op
  | .began s | .read s _ _ _ | .result s _ => s

/-- Other calls' events do not change the effects of a call. -/
theorem effect_append_of_ne {op : Nat} (hop : ∀ e ∈ es, e.id ≠ op) {p : P} {i : Nat} :
    Effect (h ++ es) op p i ↔ Effect h op p i := by
  rw [effect_append]
  constructor
  · rintro (hold | hk | ⟨x, hx⟩)
    · exact hold
    · exact absurd rfl (hop _ hk)
    · exact absurd rfl (hop _ hx)
  · exact .inl

/-- Snapshot `s` counted the versions `k` when it took `local_stamp` `ls`: it counted what had returned
before it began. -/
structure Counted (V : Versions P (Option Nat)) (h : List (Event P)) (s : Nat) (k : P → Nat) (ls : Nat) :
    Prop where
  le_last : ∀ p, k p ≤ V.last p
  before : ∀ op p i, Before h (.ret op true) (.began s) → Effect h op p i → i ≤ k p ∧ V.Within ls p i

/-- The reads of one run of the body of snapshot `s` stopped at versions whose stamps are below `B`. -/
def ReadsBelow (V : Versions P (Option Nat)) (h : List (Event P)) (s : Nat) (second : Bool) (k : P → Nat)
    (ls B : Nat) : Prop :=
  ∀ p x, .read s second p x ∈ h → ∃ i, V.CutTo k ls B p i ∧ V.value p i = x

/-- What is known of a run whose result is returned. -/
def Consistent (V : Versions P (Option Nat)) (h : List (Event P)) (s : Nat) (second : Bool) : Prop :=
  ∃ k ls B, B ≤ ls + 1 ∧ B ≤ V.clock ∧ Counted V h s k ls ∧ ReadsBelow V h s second k ls B

section Grows

variable (hg : V.Grows V') (hlive : ∀ op p i, Effect es op p i → ∀ b, .ret op b ∉ h) {s : Nat} {k : P → Nat}
  {ls B : Nat} {second : Bool}
include hg

include hlive in
/-- What a snapshot counted stays as it was. -/
theorem Counted.grows (hc : Counted V h s k ls) (hbegan : .began s ∉ es) : Counted V' (h ++ es) s k ls := by
  refine ⟨fun p => (hc.le_last p).trans (hg.last p), ?_⟩
  intro op p i hb heff
  have hold := (before_append_of_not_mem hbegan).mp hb
  rcases effect_append.mp heff with heff | hnew
  · obtain ⟨hi, hw⟩ := hc.before op p i hold heff
    exact ⟨hi, hg.within (hi.trans (hc.le_last p)) hw⟩
  · exact absurd hold.left_mem (hlive op p i hnew true)

/-- Where the reads stopped stays as it was. -/
theorem ReadsBelow.grows (hr : ReadsBelow V h s second k ls B) (hk : ∀ p, k p ≤ V.last p) (hB : B ≤ V.clock)
    (hread : ∀ p x, .read s second p x ∉ es) : ReadsBelow V' (h ++ es) s second k ls B := by
  intro p x hmem
  rcases List.mem_append.mp hmem with hold | hnew
  · obtain ⟨i, hcut, hx⟩ := hr p x hold
    refine ⟨i, hg.cutTo (hk p) hB hcut, ?_⟩
    rw [hg.value p i hcut.le_last, hx]
  · exact absurd hnew (hread p x)

include hlive in
/-- A result that was consistent stays so. -/
theorem Consistent.grows (hc : Consistent V h s second) (hbegan : .began s ∉ es)
    (hread : ∀ p x, .read s second p x ∉ es) : Consistent V' (h ++ es) s second := by
  obtain ⟨k, ls, B, hls, hB, hcount, hreads⟩ := hc
  exact ⟨k, ls, B, hls, hB.trans hg.clock, hcount.grows hg hlive hbegan,
    hreads.grows hg hcount.le_last hB hread⟩

end Grows

/-- What the history says about the versions. -/
structure HistInv (V : Versions P (Option Nat)) (h : List (Event P)) (ops : Nat) : Prop where
  ids : ∀ e ∈ h, e.id < ops
  install : ∀ op p i x, .install op p i x ∈ h → i ≤ V.last p
  installed : ∀ p i, 0 < i → i ≤ V.last p → ∃ op, .install op p i (V.value p i) ∈ h
  keep : ∀ op p i, .keep op p i ∈ h → i ≤ V.last p
  ret : ∀ op, .ret op true ∈ h → (∃ p i, Effect h op p i) ∧ ∀ p i, Effect h op p i → V.stamp p i ≠ none
  closed : ∀ op op' p q i j x, Before h (.ret op true) (.call op') → Effect h op p i →
    .install op' q j x ∈ h → V.Within (V.born q j) p i
  result : ∀ s second, .result s second ∈ h → Consistent V h s second

/-- A version with an effect exists. -/
theorem HistInv.le (hist : HistInv V h ops) {op i : Nat} {p : P} (he : Effect h op p i) :
    i ≤ V.last p := by
  rcases he with hk | ⟨x, hx⟩
  · exact hist.keep op p i hk
  · exact hist.install op p i x hx

/-- A step that emits nothing and installs nothing. -/
theorem HistInv.grows (hist : HistInv V h ops) (hg : V.Grows V') (hlast : V'.last = V.last) :
    HistInv V' h ops := by
  refine ⟨hist.ids, ?_, ?_, ?_, ?_, ?_, ?_⟩
  · intro op p i x hmem
    rw [hlast]
    exact hist.install op p i x hmem
  · intro p i hpos hi
    rw [hlast] at hi
    rw [hg.value p i hi]
    exact hist.installed p i hpos hi
  · intro op p i hmem
    rw [hlast]
    exact hist.keep op p i hmem
  · intro op hmem
    obtain ⟨hex, hall⟩ := hist.ret op hmem
    exact ⟨hex, fun p i he => hg.ne_none (hist.le he) (hall p i he)⟩
  · intro op op' p q i j x hb he hmem
    rw [hg.born q j (hist.install op' q j x hmem)]
    exact hg.within (hist.le he) (hist.closed op op' p q i j x hb he hmem)
  · intro s second hmem
    have hc : Consistent V' (h ++ []) s second :=
      (hist.result s second hmem).grows hg (by simp [Effect]) (by simp) (by simp)
    rwa [List.append_nil] at hc

/-- What an event has to satisfy in a given history, unless it is an installation. -/
def Fits (V : Versions P (Option Nat)) (h : List (Event P)) : Event P → Prop
  | .call op => ∀ p i x, .install op p i x ∉ h
  | .install _ _ _ _ => False
  | .keep op p i => i ≤ V.last p ∧ ∀ b, .ret op b ∉ h
  | .ret op b => b = true → (∃ p i, Effect h op p i) ∧ ∀ p i, Effect h op p i → V.stamp p i ≠ none
  | .began s => ∀ second, .result s second ∉ h
  | .read s _ _ _ => ∀ second, .result s second ∉ h
  | .result s second => Consistent V h s second

/-- An event that is no installation is added to the history. -/
theorem HistInv.record (hist : HistInv V h ops) {e : Event P} {ops' : Nat} (hops : ops ≤ ops')
    (hid : e.id < ops') (hfits : Fits V h e) : HistInv V (h ++ [e]) ops' := by
  have hinstall : ∀ {op p i x}, .install op p i x ∈ h ++ [e] → .install op p i x ∈ h := by
    intro op p i x hmem
    rcases List.mem_append.mp hmem with hold | hnew
    · exact hold
    · rw [← List.mem_singleton.mp hnew] at hfits
      exact absurd hfits id
  -- A call that has returned has no new effect.
  have hlive : ∀ op p i, Effect [e] op p i → ∀ b, .ret op b ∉ h := by
    rintro op p i (hk | ⟨x, hx⟩) b
    · rw [← List.mem_singleton.mp hk] at hfits
      exact hfits.2 b
    · rw [← List.mem_singleton.mp hx] at hfits
      exact absurd hfits id
  have heffect : ∀ {op b p i}, .ret op b ∈ h → Effect (h ++ [e]) op p i → Effect h op p i := by
    intro op b p i hret heff
    rcases effect_append.mp heff with hold | hnew
    · exact hold
    · exact absurd hret (hlive op p i hnew b)
  refine ⟨?_, fun op p i x hmem => hist.install op p i x (hinstall hmem), ?_, ?_, ?_, ?_, ?_⟩
  · intro e' he'
    rcases List.mem_append.mp he' with hold | hnew
    · exact (hist.ids e' hold).trans_le hops
    · rw [List.mem_singleton.mp hnew]
      exact hid
  · intro p i hpos hi
    obtain ⟨op, hop⟩ := hist.installed p i hpos hi
    exact ⟨op, List.mem_append_left _ hop⟩
  · intro op p i hmem
    rcases List.mem_append.mp hmem with hold | hnew
    · exact hist.keep op p i hold
    · rw [← List.mem_singleton.mp hnew] at hfits
      exact hfits.1
  · intro op hmem
    rcases List.mem_append.mp hmem with hold | hnew
    · obtain ⟨⟨p, i, heff⟩, hall⟩ := hist.ret op hold
      exact ⟨⟨p, i, effect_append.mpr (.inl heff)⟩, fun p i heff => hall p i (heffect hold heff)⟩
    · rw [← List.mem_singleton.mp hnew] at hfits ⊢
      obtain ⟨⟨p, i, heff⟩, hall⟩ := hfits rfl
      refine ⟨⟨p, i, effect_append.mpr (.inl heff)⟩, fun p i heff => hall p i ?_⟩
      rcases effect_append.mp heff with hold | hk | ⟨x, hx⟩
      · exact hold
      · simp at hk
      · simp at hx
  · intro op op' p q i j x hb heff hmem
    rcases before_append_iff.mp hb with hold | ⟨_, hcall⟩ | hnew
    · exact hist.closed op op' p q i j x hold (heffect hold.left_mem heff) (hinstall hmem)
    · rw [← List.mem_singleton.mp hcall] at hfits
      exact absurd (hinstall hmem) (hfits q j x)
    · exact absurd hnew not_before_singleton
  · intro s second hmem
    rcases List.mem_append.mp hmem with hold | hnew
    · refine (hist.result s second hold).grows (.refl V) hlive ?_ ?_
      · intro hb
        rw [← List.mem_singleton.mp hb] at hfits
        exact hfits second hold
      · intro p x hb
        rw [← List.mem_singleton.mp hb] at hfits
        exact hfits second hold
    · rw [← List.mem_singleton.mp hnew] at hfits ⊢
      exact hfits.grows (.refl V) (by simp [Effect]) (by simp) (by simp)

/-- Version `V.last p + 1` of `p` is installed. -/
theorem HistInv.push [DecidableEq P] (hist : HistInv V h ops) (hV : V.Ordered) {op : Nat} {p : P}
    {x : Option Nat} (hg : V.Grows V') (hlast : V'.last = Function.update V.last p (V.last p + 1))
    (hx : V'.value p (V.last p + 1) = x) (hop : op < ops) (hlive : ∀ b, .ret op b ∉ h) :
    HistInv V' (h ++ [.install op p (V.last p + 1) x]) ops := by
  have hself : V'.last p = V.last p + 1 := by rw [hlast, Function.update_self]
  have hlive' : ∀ op' q i, Effect [.install op p (V.last p + 1) x] op' q i → ∀ b, .ret op' b ∉ h := by
    rintro op' q i (hk | ⟨x', hx'⟩) b
    · simp at hk
    · simp only [List.mem_singleton, Event.install.injEq] at hx'
      rw [hx'.1]
      exact hlive b
  have heffect : ∀ {op' b q i}, .ret op' b ∈ h →
      Effect (h ++ [.install op p (V.last p + 1) x]) op' q i → Effect h op' q i := by
    intro op' b q i hret heff
    rcases effect_append.mp heff with hold | hnew
    · exact hold
    · exact absurd hret (hlive' op' q i hnew b)
  refine ⟨?_, ?_, ?_, ?_, ?_, ?_, ?_⟩
  · intro e he
    rcases List.mem_append.mp he with hold | hnew
    · exact hist.ids e hold
    · rw [List.mem_singleton.mp hnew]
      exact hop
  · intro op' q i x' hmem
    rcases List.mem_append.mp hmem with hold | hnew
    · exact (hist.install op' q i x' hold).trans (hg.last q)
    · simp only [List.mem_singleton, Event.install.injEq] at hnew
      obtain ⟨_, rfl, rfl, _⟩ := hnew
      exact hself.ge
  · intro q i hpos hi
    rcases Nat.lt_or_ge (V.last q) i with hnew | hold
    · obtain rfl : q = p := by
        by_contra hne
        rw [hlast, Function.update_of_ne hne] at hi
        omega
      obtain rfl : i = V.last q + 1 := by omega
      refine ⟨op, ?_⟩
      rw [hx]
      simp
    · obtain ⟨op', hop'⟩ := hist.installed q i hpos hold
      refine ⟨op', ?_⟩
      rw [hg.value q i hold]
      exact List.mem_append_left _ hop'
  · intro op' q i hmem
    have hold : .keep op' q i ∈ h := by simpa using hmem
    exact (hist.keep op' q i hold).trans (hg.last q)
  · intro op' hmem
    have hret : .ret op' true ∈ h := by simpa using hmem
    obtain ⟨⟨q, i, heff⟩, hall⟩ := hist.ret op' hret
    refine ⟨⟨q, i, effect_append.mpr (.inl heff)⟩, fun q i heff => ?_⟩
    have hold := heffect hret heff
    exact hg.ne_none (hist.le hold) (hall q i hold)
  · intro op₁ op₂ q r i j x' hb heffs hmem
    have hab := (before_append_of_not_mem (by simp)).mp hb
    have heff := heffect hab.left_mem heffs
    rcases List.mem_append.mp hmem with hold | hnew
    · rw [hg.born r j (hist.install op₂ r j x' hold)]
      exact hg.within (hist.le heff) (hist.closed op₁ op₂ q r i j x' hab heff hold)
    · -- The new version is installed after the other call has returned, when its stamp was set.
      simp only [List.mem_singleton, Event.install.injEq] at hnew
      obtain ⟨_, rfl, rfl, _⟩ := hnew
      obtain ⟨t, ht⟩ := Option.ne_none_iff_exists'.mp ((hist.ret op₁ hab.left_mem).2 q i heff)
      have hle := hV.le_clock q i t (hist.le heff) ht
      have hborn := hg.new r (V.last r + 1) (Nat.lt_succ_self _) hself.ge
      exact hg.within (hist.le heff) ⟨t, ht, hle.trans hborn⟩
  · intro s second hmem
    have hold : .result s second ∈ h := by simpa using hmem
    exact (hist.result s second hold).grows hg hlive' (by simp) (by simp)

end Verlib.Indirect.Lazy
