import Verlib.Hybrid.CasThread
import Mathlib.Data.Fintype.Basic
import Mathlib.Data.Nat.Find

/-!
# Snapshot atomicity

`snapshot_atomic` says that every `with_snapshot` shows one consistent cut through the versions of all
pointers: of each pointer the youngest version whose stamp is at most its `local_stamp`.
-/

namespace Verlib.Hybrid.Cas

open Interleaving

variable {P ι : Type} {G G' : Chains P} {m m' : Memory P} {a : Versioned} {h es : List (Event P)}
  {own own' : Versioned → Option ι} {c : ι}

/-! ## The invariant of a run -/

/-- The invariant of a run: the chains, the history, and what every thread knows. -/
structure Inv (owner : Nat → ι) (init : P → Option Nat) (own : Versioned → Option ι) (G : Chains P)
    (h : List (Event P)) (st : State P ι) : Prop where
  chains : ChainInv G st.memory
  last : st.last = G.last
  limit : G.limit = st.memory.done
  hist : HistInv G st.memory h st.ops
  init : ∀ p, G.ent p 0 = .direct (init p)
  null : own .null = none
  object : ∀ o, own (.direct (some o)) = some (owner o)
  threads : ∀ c, PcOk own c G st.memory h (st.threads c)
  quiet : ∀ c, Quiet own c G st.memory (st.threads c)
  ids : ∀ c w, (st.threads c).op = some w → w < st.ops ∧ ∀ b, .ret w b ∉ h
  distinct : ∀ c c' w, (st.threads c).op = some w → (st.threads c').op = some w → c = c'
  done : ∀ c ls, (st.threads c).localStamp = some ls → st.memory.done ≤ ls

/-- At the start every pointer has one version. -/
theorem inv_initial (owner : Nat → ι) {init : P → Option Nat} {stamped : Nat → Bool} {tag : P → Nat}
    {older : Versioned → Versioned} (hinit : ∀ p o, init p = some o → stamped o = true) :
    ∃ own G, Inv owner init own G []
      (initial (.initial init stamped tag older) : State P ι) := by
  refine ⟨Versioned.owned owner, .initial init,
    ⟨chainInv_initial tag older hinit, rfl, rfl, ⟨?_, ?_, ?_, ?_, ?_, ?_, ?_, ?_, ?_, ?_, ?_⟩,
      fun _ => rfl, rfl, fun _ => rfl, fun _ => trivial, ?_, ?_, ?_, ?_⟩⟩
  · simp
  · simp
  · intro p i hpos hi
    have hi : i ≤ 0 := hi
    omega
  · simp
  · simp
  · intro op op' p q i j x hb
    simp at hb
  · intro s ls op p i x hb
    simp at hb
  · simp
  · simp
  · simp
  · simp
  · rintro c y _ ⟨p, i, _, rfl⟩ hnone
    obtain ⟨t, ht, _⟩ := initial_stamp tag older hinit p
    exact absurd (hnone.symm.trans ht) (by simp)
  · rintro c w ⟨⟩
  · rintro c c' w ⟨⟩
  · rintro c ls ⟨⟩

section Update

variable [DecidableEq ι] {owner : Nat → ι} {init : P → Option Nat} {st : State P ι}

/-- One thread moves. Its events belong to its call or to a new one. -/
theorem Inv.update {ops' : Nat} {pc' : Pc P} (hinv : Inv owner init own G h st)
    (hevol : Evolves a G st.memory G' m') (hist' : HistInv G' m' (h ++ es) ops')
    (hops : st.ops ≤ ops') (hpc' : PcOk own' c G' m' (h ++ es) pc') (hquiet' : Quiet own' c G' m' pc')
    (hown : ∀ y, st.memory.Allocated y → own' y = own y)
    (halone : ∀ c' y, c' ≠ c → own y = some c' → st.memory.Allocated y → y ≠ a)
    (hinst : ∀ y, G'.Inst y → ¬ G.Inst y → own' y = some c)
    (hes : ∀ e ∈ es, (st.threads c).op = some e.id ∨ st.ops ≤ e.id)
    (hop' : ∀ w, pc'.op = some w → (st.threads c).op = some w ∨ st.ops ≤ w ∧ w < ops')
    (hret : ∀ w b, .ret w b ∈ es → pc'.op ≠ some w)
    (hlimit : G'.limit = G.limit) (hdone : m'.done = st.memory.done)
    (hlocal : ∀ ls, pc'.localStamp = some ls → st.memory.done ≤ ls) :
    Inv owner init own' G' (h ++ es) ⟨m', Function.update st.threads c pc', ops', G'.last⟩ := by
  have hdirect : ∀ ptr, st.memory.Allocated (.direct ptr) := by
    rintro ptr l ⟨⟩
  -- The events of this step are events of no other thread.
  have hforeign : ∀ c', c' ≠ c → ∀ w, (st.threads c').op = some w → ∀ e ∈ es, e.id ≠ w := by
    rintro c' hne w hw e he rfl
    rcases hes e he with hsame | hnew
    · exact hne (hinv.distinct c' c _ hw hsame)
    · exact absurd (hinv.ids c' _ hw).1 (Nat.not_lt.mpr hnew)
  have hlive : ∀ op p i, Effect es op p i → ∀ b, .ret op b ∉ h := by
    intro op p i heff b hmem
    obtain ⟨e, he, rfl⟩ : ∃ e ∈ es, Event.id e = op := by
      rcases heff with hk | ⟨x, hx⟩
      · exact ⟨_, hk, rfl⟩
      · exact ⟨_, hx, rfl⟩
    rcases hes e he with hsame | hnew
    · exact (hinv.ids c _ hsame).2 b hmem
    · exact absurd (hinv.hist.ids _ hmem) (Nat.not_lt.mpr hnew)
  have hcases : ∀ {Q : ι → Pc P → Prop}, Q c pc' → (∀ c', c' ≠ c → Q c' (st.threads c')) →
      ∀ c', Q c' (Function.update st.threads c pc' c') := by
    intro Q hself hother c'
    rcases eq_or_ne c' c with rfl | hne
    · rwa [Function.update_self]
    · rw [Function.update_of_ne hne]
      exact hother c' hne
  refine ⟨hevol.2, rfl, ?_, hist', ?_, ?_, ?_, hcases hpc' ?_, hcases hquiet' ?_, ?_, ?_, ?_⟩
  · rw [hlimit, hinv.limit]
    exact hdone.symm
  · intro p
    rw [hevol.1.ent p 0 (Nat.zero_le _)]
    exact hinv.init p
  · exact (hown _ (hdirect none)).trans hinv.null
  · intro o
    rw [hown _ (hdirect _)]
    exact hinv.object o
  · intro c' hne
    exact (hinv.threads c').ext hevol.1 hinv.chains hown (fun y => halone c' y hne) hinv.hist
      (hforeign c' hne) hlive
  · intro c' hne y ho hy hnone
    have hold : G.Inst y := by
      by_contra hno
      rw [hinst y hy hno] at ho
      cases ho
      exact hne rfl
    have halloc : st.memory.Allocated y := by
      obtain ⟨p, i, hi, rfl⟩ := hold
      exact hinv.chains.allocated hi
    rw [hown y halloc] at ho
    refine hinv.quiet c' y ho hold ?_
    by_contra hts
    exact hevol.1.ne_none hts hnone
  · refine hcases (Q := fun c' pc => ∀ w, pc.op = some w → w < ops' ∧ ∀ b, .ret w b ∉ h ++ es) ?_ ?_
    · intro w hw
      refine ⟨?_, fun b hmem => ?_⟩
      · rcases hop' w hw with hsame | hnew
        · exact (hinv.ids c w hsame).1.trans_le hops
        · exact hnew.2
      · rcases List.mem_append.mp hmem with hold | hnew
        · rcases hop' w hw with hsame | hge
          · exact (hinv.ids c w hsame).2 b hold
          · exact absurd (hinv.hist.ids _ hold) (Nat.not_lt.mpr hge.1)
        · exact hret w b hnew hw
    · intro c' hne w hw
      refine ⟨(hinv.ids c' w hw).1.trans_le hops, fun b hmem => ?_⟩
      rcases List.mem_append.mp hmem with hold | hnew
      · exact (hinv.ids c' w hw).2 b hold
      · exact hforeign c' hne w hw _ hnew rfl
  · have hnew : ∀ c', c' ≠ c → ∀ w, pc'.op = some w → (st.threads c').op ≠ some w := by
      intro c' hne w hw hw'
      rcases hop' w hw with hsame | hge
      · exact hne (hinv.distinct c' c w hw' hsame)
      · exact absurd (hinv.ids c' w hw').1 (Nat.not_lt.mpr hge.1)
    intro c₁ c₂ w h₁ h₂
    dsimp only at h₁ h₂
    rcases eq_or_ne c₁ c with rfl | hne₁
    · rcases eq_or_ne c₂ c₁ with rfl | hne₂
      · rfl
      · rw [Function.update_self] at h₁
        rw [Function.update_of_ne hne₂] at h₂
        exact absurd h₂ (hnew c₂ hne₂ w h₁)
    · rw [Function.update_of_ne hne₁] at h₁
      rcases eq_or_ne c₂ c with rfl | hne₂
      · rw [Function.update_self] at h₂
        exact absurd h₁ (hnew c₁ hne₁ w h₂)
      · rw [Function.update_of_ne hne₂] at h₂
        exact hinv.distinct c₁ c₂ w h₁ h₂
  · refine hcases (Q := fun c' pc => ∀ ls, pc.localStamp = some ls → m'.done ≤ ls) ?_ ?_
    · intro ls hls
      rw [hdone]
      exact hlocal ls hls
    · intro c' _ ls hls
      rw [hdone]
      exact hinv.done c' ls hls

/-- A thread starts or ends something, without touching the memory. -/
theorem Inv.goto {ops' : Nat} {pc' : Pc P} (hinv : Inv owner init own G h st)
    (hist' : HistInv G st.memory (h ++ es) ops') (hops : st.ops ≤ ops')
    (hpc' : PcOk own c G st.memory (h ++ es) pc') (hholds : ∀ y, ¬ (st.threads c).Holds y)
    (hes : ∀ e ∈ es, st.ops ≤ e.id)
    (hop' : ∀ w, pc'.op = some w → (st.threads c).op = some w ∨ st.ops ≤ w ∧ w < ops')
    (hret : ∀ w b, Event.ret w b ∉ es)
    (hlocal : ∀ ls, pc'.localStamp = some ls → st.memory.done ≤ ls) :
    Inv owner init own G (h ++ es)
      ⟨st.memory, Function.update st.threads c pc', ops', st.last⟩ := by
  rw [hinv.last]
  refine hinv.update (a := .null) ⟨Ext.refl _ G _, hinv.chains⟩ hist' hops hpc' ?_ (fun _ _ => rfl) ?_
    (fun y hy hno => absurd hy hno) (fun e he => .inr (hes e he)) hop'
    (fun w b hmem => absurd hmem (hret w b)) rfl rfl hlocal
  · intro y ho hy hnone
    exact absurd (hinv.quiet c y ho hy hnone) (hholds y)
  · rintro c' y _ ho _ rfl
    rw [hinv.null] at ho
    cases ho

variable [DecidableEq P]

/-- Every step keeps the invariant. -/
theorem Inv.step {st' : State P ι} {act : Action P ι} (hinv : Inv owner init own G h st)
    (hallowed : Allowed owner st act) (hstep : next act st = some (es, st')) :
    ∃ own' G', Inv owner init own' G' (h ++ es) st' := by
  have hfresh : ∀ op p i, Effect h op p i → op < st.ops := by
    rintro op p i (hk | ⟨x, hx⟩)
    · exact hinv.hist.ids _ hk
    · exact hinv.hist.ids _ hx
  cases act with
  | step c tag =>
      simp only [next, Option.map_eq_some_iff] at hstep
      obtain ⟨r, hr, heq⟩ := hstep
      cases heq
      obtain ⟨hop, hes, hret, hdone, hls⟩ := stepThread_frame hr
      rw [hinv.last] at hr
      obtain ⟨own', G', a, hevol, hlast, hlimit, hist', hpc', hquiet', hown, halone, hinst⟩ :=
        (hinv.threads c).step hinv.chains hinv.hist (hinv.quiet c) hinv.null (hinv.ids c)
          (fun ls hls => hinv.limit.trans_le (hinv.done c ls hls)) hr
      refine ⟨own', G', ?_⟩
      rw [hlast]
      refine hinv.update hevol hist' le_rfl hpc' hquiet' hown halone hinst
        (fun e he => .inl (hes e he)) ?_ ?_ hlimit hdone ?_
      · intro w hw
        rcases hop with hsame | hnone
        · exact .inl (hsame ▸ hw)
        · rw [hnone] at hw
          cases hw
      · intro w b hmem habs
        rw [hret w b hmem] at habs
        cases habs
      · intro ls h
        rcases hls ls h with hold | henter
        · exact hinv.done c ls hold
        · exact hallowed ls henter
  | cas c p exp ptr =>
      simp only [next] at hstep
      split at hstep
      · rename_i hidle
        cases hstep
        refine ⟨own, G, hinv.goto ?_ (Nat.le_succ _) ⟨?_, ?_⟩ (by rw [hidle]; exact fun _ => id)
          (by simp [Event.id]) (by rintro w ⟨⟩; exact .inr ⟨le_rfl, Nat.lt_succ_self _⟩) (by simp)
          (by rintro ls ⟨⟩)⟩
        · refine hinv.hist.record (Nat.le_succ _) (Nat.lt_succ_self _) fun q i x hmem => ?_
          exact absurd (hinv.hist.ids _ hmem) (Nat.lt_irrefl _)
        · intro q i heff
          rcases effect_append.mp heff with hold | hk | ⟨x, hx⟩
          · exact absurd (hfresh _ q i hold) (Nat.lt_irrefl _)
          · simp at hk
          · simp at hx
        · intro hnone
          cases ptr with
          | none => exact absurd (hinv.chains.null.symm.trans hnone) (by simp)
          | some o =>
              have ho : owner o = c := hallowed hnone
              rw [← ho]
              exact hinv.object o
      · cases hstep
  | load c p | validate c p =>
      simp only [next] at hstep
      split at hstep
      · rename_i hidle
        cases hstep
        refine ⟨own, G, hinv.goto (by simpa using hinv.hist) le_rfl trivial
          (by rw [hidle]; exact fun _ => id) (by simp) (by rintro w ⟨⟩) (by simp) (by rintro ls ⟨⟩)⟩
      · cases hstep
  | withSnapshot c =>
      simp only [next] at hstep
      split at hstep
      · rename_i hidle
        cases hstep
        have hno : ∀ ls, .stamped st.ops ls ∉ h := fun ls hmem =>
          absurd (hinv.hist.ids _ hmem) (Nat.lt_irrefl _)
        refine ⟨own, G, hinv.goto (hinv.hist.record (Nat.le_succ _) (Nat.lt_succ_self _) hno)
          (Nat.le_succ _) ?_ (by rw [hidle]; exact fun _ => id) (by simp [Event.id])
          (by rintro w ⟨⟩; exact .inr ⟨le_rfl, Nat.lt_succ_self _⟩) (by simp) (by rintro ls ⟨⟩)⟩
        intro ls hmem
        exact hno ls (by simpa using hmem)
      · cases hstep
  | read c p =>
      simp only [next] at hstep
      split at hstep
      · rename_i s ls hin
        cases hstep
        have hpc := hinv.threads c
        rw [hin] at hpc
        refine ⟨own, G, hinv.goto (by simpa using hinv.hist) le_rfl ?_
          (by rw [hin]; exact fun _ => id) (by simp) (fun w hw => .inl (by rw [hin]; exact hw))
          (by simp) ?_⟩
        · rw [List.append_nil]
          exact hpc
        · intro ls' hls'
          exact hinv.done c ls' (by rw [hin]; exact hls')
      · cases hstep
  | leave c =>
      simp only [next] at hstep
      split at hstep
      · rename_i s ls hin
        cases hstep
        exact ⟨own, G, hinv.goto (by simpa using hinv.hist) le_rfl trivial
          (by rw [hin]; exact fun _ => id) (by simp) (by rintro w ⟨⟩) (by simp) (by rintro ls ⟨⟩)⟩
      · cases hstep
  | raise d =>
      simp only [next] at hstep
      split at hstep
      · rename_i hle
        cases hstep
        have hevol := hinv.chains.setDone .null d
        have hne : ∀ c y, own y = some c → st.memory.Allocated y → y ≠ .null := by
          rintro c y ho _ rfl
          rw [hinv.null] at ho
          cases ho
        refine ⟨own, _, hevol.2, hinv.last, ?_, ?_, hinv.init, hinv.null, hinv.object, ?_, ?_, ?_,
          hinv.distinct, fun c ls hls => hallowed c ls hls⟩
        · show max G.limit d = d
          rw [hinv.limit]
          exact max_eq_right hle
        · rw [List.append_nil]
          exact hinv.hist.ext hinv.chains hevol.1 rfl
        · intro c
          exact (hinv.threads c).ext hevol.1 hinv.chains (fun _ _ => rfl) (hne c) hinv.hist (by simp)
            (by simp [Effect])
        · intro c
          exact (hinv.quiet c).ext hevol.1 (fun _ => id) fun y _ hy _ => hy
        · rw [List.append_nil]
          exact hinv.ids
      · cases hstep

end Update

/-! ## The theorem -/

/-- `x` is the value of version `i` of `p`. -/
def IsVersion (init : P → Option Nat) (h : List (Event P)) (p : P) (i : Nat) (x : Option Nat) : Prop :=
  i = 0 ∧ x = init p ∨ ∃ op, .install op p i x ∈ h

/-- Snapshot `s` shows of each pointer the version that `cut` says: its reads return the values of these
versions, it shows every `cas` that returned true before it began and no `cas` that was called after its
`get_read_stamp` returned, and with a `cas` it shows everything that returned true before that `cas` was
called. -/
structure ShowsCut (init : P → Option Nat) (h : List (Event P)) (s : Nat) (cut : P → Nat) : Prop where
  reads : ∀ p x, .read s p x ∈ h → IsVersion init h p (cut p) x
  repeated : ∀ p x y, .read s p x ∈ h → .read s p y ∈ h → x = y
  before : ∀ op p i, Before h (.ret op true) (.began s) → Effect h op p i → i ≤ cut p
  after : ∀ ls op p i x, Before h (.stamped s ls) (.call op) → .install op p i x ∈ h → cut p < i
  closed : ∀ op op' p q i j x, Before h (.ret op true) (.call op') → Effect h op p i →
    .install op' q j x ∈ h → j ≤ cut q → i ≤ cut p

/-- The youngest version of each pointer with a stamp of at most `ls`. -/
def cutAt (G : Chains P) (m : Memory P) (ls : Nat) (p : P) : Nat :=
  Nat.findGreatest (fun i => Within G m ls p i) (G.last p)

section CutAt

variable (hinv : ChainInv G m) {ls : Nat}
include hinv

/-- The cut selects a version with a stamp of at most `ls`. -/
theorem cutAt_within (hls : 1 ≤ ls) (p : P) : Within G m ls p (cutAt G m ls p) := by
  obtain ⟨t, ht, hle⟩ := hinv.first p
  unfold cutAt
  exact Nat.findGreatest_spec (P := fun i => Within G m ls p i) (Nat.zero_le _)
    ⟨t, ht, hle.trans hls⟩

omit hinv in
/-- Versions with a stamp of at most `ls` are at or before the cut. -/
theorem le_cutAt {p : P} {i : Nat} (hi : i ≤ G.last p) (hw : Within G m ls p i) :
    i ≤ cutAt G m ls p := by
  unfold cutAt
  exact Nat.le_findGreatest hi hw

/-- Versions at or before the cut have a stamp of at most `ls`. -/
theorem within_of_le_cutAt (hls : 1 ≤ ls) {p : P} {i : Nat} (hi : i ≤ cutAt G m ls p) :
    Within G m ls p i := by
  have hlast : cutAt G m ls p ≤ G.last p := Nat.findGreatest_le _
  rcases Nat.lt_or_eq_of_le hi with hlt | rfl
  · obtain ⟨t', ht', hle⟩ := cutAt_within hinv hls p
    obtain ⟨t, ht⟩ := Option.ne_none_iff_exists'.mp (hinv.stamped p i (hlt.trans_le hlast))
    exact ⟨t, ht, (hinv.stamp_mono hi hlast ht ht').trans hle⟩
  · exact cutAt_within hinv hls p

/-- The version that a reader has found is the one that the cut selects. -/
theorem eq_cutAt (hls : 1 ≤ ls) {p : P} {i : Nat} (hc : Cut G m ls p i) :
    i = cutAt G m ls p :=
  le_antisymm (le_cutAt hc.1 hc.2.1)
    (hc.le hinv (Nat.findGreatest_le _) (cutAt_within hinv hls p))

/-- A version at or before the cut was installed before the clock passed `ls`. -/
theorem born_le_of_le_cutAt (hls : 1 ≤ ls) {p : P} {i : Nat} (hi : i ≤ cutAt G m ls p) :
    G.born p i ≤ ls := by
  obtain ⟨t, ht, hle⟩ := within_of_le_cutAt hinv hls hi
  exact (hinv.born_le_stamp p i t (hi.trans (Nat.findGreatest_le _)) ht).trans hle

end CutAt

variable [DecidableEq P] [DecidableEq ι]

/-- Snapshot atomicity: in every run, every `with_snapshot` shows a consistent cut through the versions
of all pointers, and a `cas` that has returned true has installed a version or found its value in one. -/
theorem snapshot_atomic {owner : Nat → ι} {init : P → Option Nat} {h : List (Event P)}
    {st : State P ι} (hexec : Exec (system owner init) h st) :
    (∀ s ls, .stamped s ls ∈ h → ∃ cut, ShowsCut init h s cut) ∧
      ∀ op, .ret op true ∈ h → ∃ p i, Effect h op p i := by
  obtain ⟨own, G, hinv⟩ : ∃ own G, Inv owner init own G h st := by
    refine Exec.invariant (P := fun h st => ∃ own G, Inv owner init own G h st) ?_ ?_ hexec
    · rintro _ ⟨stamped, tag, older, hinit, rfl⟩
      exact inv_initial owner hinit
    · rintro h st act es st' _ ⟨own, G, hinv⟩ ⟨hallowed, hstep⟩
      exact hinv.step hallowed hstep
  refine ⟨fun s ls hst => ?_, fun op hret => (hinv.hist.ret op hret).1⟩
  have hchains := hinv.chains
  obtain ⟨hls, _⟩ := hinv.hist.stamped s ls hst
  have hread : ∀ p x, .read s p x ∈ h → x = st.memory.getPtr (G.ent p (cutAt G st.memory ls p)) := by
    intro p x hmem
    obtain ⟨ls', i, hst', hcut, rfl⟩ := hinv.hist.read s p x hmem
    obtain rfl := hinv.hist.unique s ls ls' hst hst'
    rw [← eq_cutAt hchains hls hcut]
  refine ⟨cutAt G st.memory ls, ⟨?_, ?_, ?_, ?_, ?_⟩⟩
  · intro p x hmem
    rw [hread p x hmem]
    rcases Nat.eq_zero_or_pos (cutAt G st.memory ls p) with hzero | hpos
    · refine .inl ⟨hzero, ?_⟩
      rw [hzero, hinv.init p]
      rfl
    · exact .inr (hinv.hist.installed p _ hpos (Nat.findGreatest_le _))
  · intro p x y hx hy
    rw [hread p x hx, hread p y hy]
  · intro op p i hb heff
    exact le_cutAt (hinv.hist.le heff) (hinv.hist.began s ls op p i hst hb heff)
  · intro ls' op p i x hb hmem
    obtain rfl := hinv.hist.unique s ls ls' hst hb.left_mem
    by_contra hle
    have hborn := born_le_of_le_cutAt hchains hls (Nat.le_of_not_lt hle)
    have hlt := hinv.hist.later s ls op p i x hb hmem
    omega
  · intro op op' p q i j x hb heff hmem hj
    obtain ⟨t, ht, hle⟩ := hinv.hist.closed op op' p q i j x hb heff hmem
    exact le_cutAt (hinv.hist.le heff) ⟨t, ht, hle.trans (born_le_of_le_cutAt hchains hls hj)⟩

/-- The assumptions are decidable for finitely many threads. -/
instance [Fintype ι] (owner : Nat → ι) (st : State P ι) (act : Action P ι) :
    Decidable (Allowed owner st act) :=
  match act with
  | .raise d => inferInstanceAs (Decidable (∀ c, ∀ ls ∈ (st.threads c).localStamp, d ≤ ls))
  | .step c _ => inferInstanceAs (Decidable (∀ ts ∈ (st.threads c).enters, st.memory.done ≤ ts))
  | .cas c _ _ (some o) =>
      inferInstanceAs (Decidable (st.memory.timeStamp (.direct (some o)) = none → owner o = c))
  | .cas _ _ _ none | .load _ _ | .validate _ _ | .withSnapshot _ | .read _ _ | .leave _ =>
      isTrue trivial

/-- A run: object 5 is installed in one pointer before the snapshot begins, and through a link in the
other pointer after its `get_read_stamp` has returned; the snapshot walks past the link to object 0. -/
theorem snapshot_atomic_run :
    ∃ h st, Exec (system (fun _ => true) fun p : Bool => if p then some 0 else none) h st ∧
      Before h (.ret 0 true) (.began 1) ∧ Before h (.stamped 1 1) (.call 2) ∧
      .read 1 true (some 0) ∈ h ∧ .read 1 false (some 5) ∈ h ∧
      ∃ cut, ShowsCut (fun p : Bool => if p then some 0 else none) h 1 cut := by
  obtain ⟨h, st, hexec, rfl⟩ :
      ∃ h st, Exec (system (fun _ => true) fun p : Bool => if p then some 0 else none) h st ∧
        h = [.call 0, .install 0 false 1 (some 5), .ret 0 true, .began 1, .stamped 1 1, .call 2,
          .install 2 true 1 (some 5), .ret 2 true, .read 1 true (some 0), .read 1 false (some 5)] :=
    exists_exec_restrict_of_run _
      (List.flatten [[.cas true false none (some 5)], List.replicate 11 (.step true 0),
        [.withSnapshot false], List.replicate 4 (.step false 0), [.cas true true (some 0) (some 5)],
        List.replicate 13 (.step true 0), [.read false true], List.replicate 5 (.step false 0),
        [.read false false], List.replicate 3 (.step false 0)])
      ⟨fun o => o == 0, fun _ => 0, id, by simp, rfl⟩ (by decide +kernel)
  exact ⟨_, st, hexec, by decide, by decide, by simp, by simp,
    (snapshot_atomic hexec).1 1 1 (by simp)⟩

end Verlib.Hybrid.Cas
