import Verlib.Hybrid.Cas
import Verlib.Hybrid.Update

/-!
# What a history says about the version chains

A snapshot with `local_stamp` `ls` shows of each pointer the youngest version whose stamp is at most
`ls`. The invariant of the history relates installations, returns and reads to the stamps of versions
and to the clock at their installation.
-/

namespace Verlib.Hybrid.Cas

open Interleaving

variable {P : Type} {G G' : Chains P} {m m' : Memory P} {a : Versioned} {h : List (Event P)}
  {ops : Nat}

/-- The `cas` with identity `op` has returned or will return true because of version `i` of `p`: it
installed this version, or it found its value there. -/
def Effect (h : List (Event P)) (op : Nat) (p : P) (i : Nat) : Prop :=
  .keep op p i ∈ h ∨ ∃ x, .install op p i x ∈ h

/-- The call or the snapshot that an event belongs to. -/
def Event.id : Event P → Nat
  | .call op | .install op _ _ _ | .keep op _ _ | .ret op _ => op
  | .began s | .stamped s _ | .read s _ _ => s

/-- What the history says about the chains. -/
structure HistInv (G : Chains P) (m : Memory P) (h : List (Event P)) (ops : Nat) : Prop where
  ids : ∀ e ∈ h, e.id < ops
  install : ∀ op p i x, .install op p i x ∈ h → 0 < i ∧ i ≤ G.last p ∧ m.getPtr (G.ent p i) = x
  installed : ∀ p i, 0 < i → i ≤ G.last p → ∃ op, .install op p i (m.getPtr (G.ent p i)) ∈ h
  keep : ∀ op p i, .keep op p i ∈ h → i ≤ G.last p
  ret : ∀ op, .ret op true ∈ h → (∃ p i, Effect h op p i) ∧
    ∀ p i, Effect h op p i → m.timeStamp (G.ent p i) ≠ none
  closed : ∀ op op' p q i j x, Before h (.ret op true) (.call op') → Effect h op p i →
    .install op' q j x ∈ h → Within G m (G.born q j) p i
  later : ∀ s ls op p i x, Before h (.stamped s ls) (.call op) → .install op p i x ∈ h →
    ls < G.born p i
  stamped : ∀ s ls, .stamped s ls ∈ h → 1 ≤ ls ∧ ls < m.stamp
  unique : ∀ s ls ls', .stamped s ls ∈ h → .stamped s ls' ∈ h → ls = ls'
  began : ∀ s ls op p i, .stamped s ls ∈ h → Before h (.ret op true) (.began s) → Effect h op p i →
    Within G m ls p i
  read : ∀ s p x, .read s p x ∈ h →
    ∃ ls i, .stamped s ls ∈ h ∧ Cut G m ls p i ∧ m.getPtr (G.ent p i) = x

/-- A version with an effect exists. -/
theorem HistInv.le (hist : HistInv G m h ops) {op i : Nat} {p : P} (he : Effect h op p i) :
    i ≤ G.last p := by
  rcases he with hk | ⟨x, hx⟩
  · exact hist.keep op p i hk
  · exact (hist.install op p i x hx).2.1

/-- A step that emits nothing and installs nothing. -/
theorem HistInv.ext (hist : HistInv G m h ops) (hinv : ChainInv G m) (hext : Ext a G m G' m')
    (hlast : G'.last = G.last) : HistInv G' m' h ops := by
  have hle : ∀ {op p i}, Effect h op p i → i ≤ G.last p := fun he => hist.le he
  have hptr : ∀ {p i}, i ≤ G.last p → m'.getPtr (G'.ent p i) = m.getPtr (G.ent p i) := by
    intro p i hi
    rw [hext.ent p i hi, hext.getPtr (hinv.allocated hi)]
  refine ⟨hist.ids, ?_, ?_, ?_, ?_, ?_, ?_, ?_, hist.unique, ?_, ?_⟩
  · intro op p i x hmem
    obtain ⟨hpos, hi, hx⟩ := hist.install op p i x hmem
    exact ⟨hpos, hlast ▸ hi, by rw [hptr hi, hx]⟩
  · intro p i hpos hi
    rw [hlast] at hi
    rw [hptr hi]
    exact hist.installed p i hpos hi
  · intro op p i hmem
    rw [hlast]
    exact hist.keep op p i hmem
  · intro op hmem
    obtain ⟨hex, hall⟩ := hist.ret op hmem
    refine ⟨hex, fun p i he => ?_⟩
    rw [hext.ent p i (hle he)]
    exact hext.ne_none (hall p i he)
  · intro op op' p q i j x hbefore he hmem
    rw [hext.born q j (hist.install op' q j x hmem).2.1]
    exact hext.within (hle he) (hist.closed op op' p q i j x hbefore he hmem)
  · intro s ls op p i x hbefore hmem
    rw [hext.born p i (hist.install op p i x hmem).2.1]
    exact hist.later s ls op p i x hbefore hmem
  · intro s ls hmem
    exact ⟨(hist.stamped s ls hmem).1, (hist.stamped s ls hmem).2.trans_le hext.stamp⟩
  · intro s ls op p i hmem hbefore he
    exact hext.within (hle he) (hist.began s ls op p i hmem hbefore he)
  · intro s p x hmem
    obtain ⟨ls, i, hst, hcut, hx⟩ := hist.read s p x hmem
    exact ⟨ls, i, hst, hext.cut (hist.stamped s ls hst).2 hcut, by rw [hptr hcut.1, hx]⟩

/-- The effects of a longer history. -/
theorem effect_append {es : List (Event P)} {op i : Nat} {p : P} :
    Effect (h ++ es) op p i ↔ Effect h op p i ∨ Effect es op p i := by
  simp only [Effect, List.mem_append, exists_or]
  tauto

/-- What an event has to satisfy in a given history, unless it is an installation. -/
def Fits (G : Chains P) (m : Memory P) (h : List (Event P)) : Event P → Prop
  | .call op => ∀ p i x, .install op p i x ∉ h
  | .install _ _ _ _ => False
  | .keep op p i => i ≤ G.last p ∧ ∀ b, .ret op b ∉ h
  | .ret op b => b = true → (∃ p i, Effect h op p i) ∧
      ∀ p i, Effect h op p i → m.timeStamp (G.ent p i) ≠ none
  | .began s => ∀ ls, .stamped s ls ∉ h
  | .stamped s ls => (∀ ls', .stamped s ls' ∉ h) ∧ 1 ≤ ls ∧ ls < m.stamp ∧
      ∀ op p i, Before h (.ret op true) (.began s) → Effect h op p i → Within G m ls p i
  | .read s p x => ∃ ls i, .stamped s ls ∈ h ∧ Cut G m ls p i ∧ m.getPtr (G.ent p i) = x

/-- An event that is no installation is added to the history. -/
theorem HistInv.record (hist : HistInv G m h ops) {e : Event P} {ops' : Nat} (hops : ops ≤ ops')
    (hid : e.id < ops') (hfits : Fits G m h e) : HistInv G m (h ++ [e]) ops' := by
  have hinstall : ∀ {op p i x}, .install op p i x ∈ h ++ [e] → .install op p i x ∈ h := by
    intro op p i x hmem
    rcases List.mem_append.mp hmem with hold | hnew
    · exact hold
    · rw [← List.mem_singleton.mp hnew] at hfits
      exact absurd hfits id
  -- A call that has returned has no new effect.
  have heffect : ∀ {op b p i}, .ret op b ∈ h → Effect (h ++ [e]) op p i → Effect h op p i := by
    intro op b p i hret heff
    rcases effect_append.mp heff with hold | hk | ⟨x, hx⟩
    · exact hold
    · rw [← List.mem_singleton.mp hk] at hfits
      exact absurd hret (hfits.2 b)
    · rw [← List.mem_singleton.mp hx] at hfits
      exact absurd hfits id
  have hbefore : ∀ {x y : Event P}, Before (h ++ [e]) x y → Before h x y ∨ y = e := by
    intro x y hxy
    rcases before_append_iff.mp hxy with hold | ⟨_, hy⟩ | hnew
    · exact .inl hold
    · exact .inr (List.mem_singleton.mp hy)
    · exact absurd hnew not_before_singleton
  have hle : ∀ {op p i}, .keep op p i ∈ h ++ [e] → i ≤ G.last p := by
    intro op p i hmem
    rcases List.mem_append.mp hmem with hold | hnew
    · exact hist.keep op p i hold
    · rw [← List.mem_singleton.mp hnew] at hfits
      exact hfits.1
  refine ⟨?_, fun op p i x hmem => hist.install op p i x (hinstall hmem), ?_, fun op p i => hle, ?_, ?_,
    ?_, ?_, ?_, ?_, ?_⟩
  · intro e' he'
    rcases List.mem_append.mp he' with hold | hnew
    · exact (hist.ids e' hold).trans_le hops
    · rw [List.mem_singleton.mp hnew]
      exact hid
  · intro p i hpos hi
    obtain ⟨op, hop⟩ := hist.installed p i hpos hi
    exact ⟨op, List.mem_append_left _ hop⟩
  · intro op hmem
    rcases List.mem_append.mp hmem with hold | hnew
    · obtain ⟨⟨p, i, heff⟩, hall⟩ := hist.ret op hold
      exact ⟨⟨p, i, effect_append.mpr (.inl heff)⟩, fun p i heff => hall p i (heffect hold heff)⟩
    · rw [← List.mem_singleton.mp hnew] at hfits ⊢
      obtain ⟨⟨p, i, heff⟩, hall⟩ := hfits rfl
      refine ⟨⟨p, i, effect_append.mpr (.inl heff)⟩, fun p i heff => hall p i ?_⟩
      rcases effect_append.mp heff with hold | hk | ⟨x, hx⟩
      · exact hold
      · simp at hk
      · simp at hx
  · intro op op' p q i j x hxy heff hmem
    rcases hbefore hxy with hold | rfl
    · exact hist.closed op op' p q i j x hold (heffect hold.left_mem heff) (hinstall hmem)
    · exact absurd (hinstall hmem) (hfits q j x)
  · intro s ls op p i x hxy hmem
    rcases hbefore hxy with hold | rfl
    · exact hist.later s ls op p i x hold (hinstall hmem)
    · exact absurd (hinstall hmem) (hfits p i x)
  · intro s ls hmem
    rcases List.mem_append.mp hmem with hold | hnew
    · exact hist.stamped s ls hold
    · rw [← List.mem_singleton.mp hnew] at hfits
      exact ⟨hfits.2.1, hfits.2.2.1⟩
  · intro s ls ls' hmem hmem'
    rcases List.mem_append.mp hmem with hold | hnew
    · rcases List.mem_append.mp hmem' with hold' | hnew'
      · exact hist.unique s ls ls' hold hold'
      · rw [← List.mem_singleton.mp hnew'] at hfits
        exact absurd hold (hfits.1 ls)
    · rcases List.mem_append.mp hmem' with hold' | hnew'
      · rw [← List.mem_singleton.mp hnew] at hfits
        exact absurd hold' (hfits.1 ls')
      · have heq := (List.mem_singleton.mp hnew).trans (List.mem_singleton.mp hnew').symm
        simpa using heq
  · intro s ls op p i hmem hxy heff
    rcases hbefore hxy with hold | rfl
    · have heff' := heffect hold.left_mem heff
      rcases List.mem_append.mp hmem with hst | hnew
      · exact hist.began s ls op p i hst hold heff'
      · rw [← List.mem_singleton.mp hnew] at hfits
        exact hfits.2.2.2 op p i hold heff'
    · have hst : .stamped s ls ∈ h := by simpa using hmem
      exact absurd hst (hfits ls)
  · intro s p x hmem
    rcases List.mem_append.mp hmem with hold | hnew
    · obtain ⟨ls, i, hst, hcut⟩ := hist.read s p x hold
      exact ⟨ls, i, List.mem_append_left _ hst, hcut⟩
    · rw [← List.mem_singleton.mp hnew] at hfits
      obtain ⟨ls, i, hst, hcut⟩ := hfits
      exact ⟨ls, i, List.mem_append_left _ hst, hcut⟩

/-- A version is installed. -/
theorem HistInv.push [DecidableEq P] (hist : HistInv G m h ops) (hinv : ChainInv G m) {op : Nat}
    {p : P} {y : Versioned} {x : Option Nat} (hext : Ext y G m (G.push p y m.stamp) m')
    (hop : op < ops) (hlive : ∀ b, .ret op b ∉ h) (hx : m'.getPtr y = x) :
    HistInv (G.push p y m.stamp) m' (h ++ [.install op p (G.last p + 1) x]) ops := by
  have hborn : (G.push p y m.stamp).born p (G.last p + 1) = m.stamp := by simp [Chains.push]
  have hlast : (G.push p y m.stamp).last p = G.last p + 1 := by simp [Chains.push]
  have hptr : ∀ {q i}, i ≤ G.last q →
      m'.getPtr ((G.push p y m.stamp).ent q i) = m.getPtr (G.ent q i) := by
    intro q i hi
    rw [hext.ent q i hi, hext.getPtr (hinv.allocated hi)]
  have heffect : ∀ {op' b q i}, .ret op' b ∈ h →
      Effect (h ++ [.install op p (G.last p + 1) x]) op' q i → Effect h op' q i := by
    intro op' b q i hret heff
    rcases effect_append.mp heff with hold | hk | ⟨x', hx'⟩
    · exact hold
    · simp at hk
    · simp only [List.mem_singleton, Event.install.injEq] at hx'
      rw [hx'.1] at hret
      exact absurd hret (hlive b)
  have hbefore : ∀ {a b : Event P}, (∀ op' q i x', b ≠ .install op' q i x') →
      Before (h ++ [.install op p (G.last p + 1) x]) a b → Before h a b := by
    intro a b hne hab
    exact (before_append_of_not_mem (by simpa using hne op p (G.last p + 1) x)).mp hab
  have hret : ∀ {op' b}, .ret op' b ∈ h ++ [.install op p (G.last p + 1) x] → .ret op' b ∈ h := by
    intro op' b hmem
    simpa using hmem
  have hst : ∀ {s ls}, .stamped s ls ∈ h ++ [.install op p (G.last p + 1) x] →
      .stamped s ls ∈ h := by
    intro s ls hmem
    simpa using hmem
  refine ⟨?_, ?_, ?_, ?_, ?_, ?_, ?_, ?_, ?_, ?_, ?_⟩
  · intro e he
    rcases List.mem_append.mp he with hold | hnew
    · exact hist.ids e hold
    · rw [List.mem_singleton.mp hnew]
      exact hop
  · intro op' q i x' hmem
    rcases List.mem_append.mp hmem with hold | hnew
    · obtain ⟨hpos, hi, hx'⟩ := hist.install op' q i x' hold
      exact ⟨hpos, hi.trans (hext.last q), by rw [hptr hi, hx']⟩
    · simp only [List.mem_singleton, Event.install.injEq] at hnew
      obtain ⟨rfl, rfl, rfl, rfl⟩ := hnew
      exact ⟨Nat.succ_pos _, hlast.ge, by rw [push_ent, hx]⟩
  · intro q i hpos hi
    rcases push_cases hi with ⟨hi, _⟩ | ⟨rfl, rfl, hent, _⟩
    · obtain ⟨op', hop'⟩ := hist.installed q i hpos hi
      exact ⟨op', by rw [hptr hi]; exact List.mem_append_left _ hop'⟩
    · exact ⟨op, by rw [hent, hx]; simp⟩
  · intro op' q i hmem
    have hold : .keep op' q i ∈ h := by simpa using hmem
    exact (hist.keep op' q i hold).trans (hext.last q)
  · intro op' hmem
    obtain ⟨⟨q, i, heff⟩, hall⟩ := hist.ret op' (hret hmem)
    refine ⟨⟨q, i, effect_append.mpr (.inl heff)⟩, fun q i heff => ?_⟩
    have hold := heffect (hret hmem) heff
    rw [hext.ent q i (hist.le hold)]
    exact hext.ne_none (hall q i hold)
  · intro op₁ op₂ q r i j x' hcall heffs hmem
    have hab := hbefore (by simp) hcall
    have heff := heffect hab.left_mem heffs
    rcases List.mem_append.mp hmem with hold | hnew
    · rw [hext.born r j (hist.install op₂ r j x' hold).2.1]
      exact hext.within (hist.le heff) (hist.closed op₁ op₂ q r i j x' hab heff hold)
    · -- The new version is installed after the other call has returned, when its stamp was set.
      simp only [List.mem_singleton, Event.install.injEq] at hnew
      obtain ⟨_, rfl, rfl, _⟩ := hnew
      obtain ⟨t, ht⟩ := Option.ne_none_iff_exists'.mp ((hist.ret op₁ hab.left_mem).2 q i heff)
      rw [hborn]
      exact hext.within (hist.le heff) ⟨t, ht, hinv.le_stamp _ t ht⟩
  · intro s ls op' q i x' hcall hmem
    have hab := hbefore (by simp) hcall
    rcases List.mem_append.mp hmem with hold | hnew
    · rw [hext.born q i (hist.install op' q i x' hold).2.1]
      exact hist.later s ls op' q i x' hab hold
    · simp only [List.mem_singleton, Event.install.injEq] at hnew
      obtain ⟨_, rfl, rfl, _⟩ := hnew
      rw [hborn]
      exact (hist.stamped s ls hab.left_mem).2
  · intro s ls hmem
    obtain ⟨hpos, hlt⟩ := hist.stamped s ls (hst hmem)
    exact ⟨hpos, hlt.trans_le hext.stamp⟩
  · intro s ls ls' hmem hmem'
    exact hist.unique s ls ls' (hst hmem) (hst hmem')
  · intro s ls op' q i hmem hcall heffs
    have hab := hbefore (by simp) hcall
    have heff := heffect hab.left_mem heffs
    exact hext.within (hist.le heff) (hist.began s ls op' q i (hst hmem) hab heff)
  · intro s q x' hmem
    have hold : .read s q x' ∈ h := by simpa using hmem
    obtain ⟨ls, i, hs, hcut, hx'⟩ := hist.read s q x' hold
    exact ⟨ls, i, List.mem_append_left _ hs, hext.cut (hist.stamped s ls hs).2 hcut,
      by rw [hptr hcut.1, hx']⟩

end Verlib.Hybrid.Cas
