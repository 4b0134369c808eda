import Mathlib.Logic.Function.Basic
import Verlib.OrderedMap.Map

/-!
# The same operations under other keys

An implementation takes fuel for its loops, and may meet its purpose only in some of its states: where the guard of an
operation does not hold, it does not end, or it reports a removal that has not taken place. Then two implementations
agree on a sequence of operations under a renaming of the keys if and only if every guard holds on the way.
-/

namespace OrderedMap

variable {K K' V σ σ' : Type}

/-! ## Runs -/

section

variable {perform : Nat → σ → Op K V → Option (σ × Result V)} {op : Op K V} {rest : List (Op K V)} {s s₁ t : σ}
  {r : Result V} {rs : List (Result V)}

/-- An operation that ends, and those after it. -/
theorem ends_run_cons (hop : Ends (fun fuel => perform fuel s op) (s₁, r)) :
    Ends (fun fuel => run (perform fuel) (op :: rest) s) (t, rs) ↔
      ∃ rs', rs = r :: rs' ∧ Ends (fun fuel => run (perform fuel) rest s₁) (t, rs') := by
  obtain ⟨enough, hop⟩ := hop
  have hop : ∀ fuel ≥ enough, perform fuel s op = some (s₁, r) := hop
  constructor
  · intro hrun
    obtain ⟨enough', hrun⟩ := hrun
    have hrun : ∀ fuel ≥ enough', run (perform fuel) (op :: rest) s = some (t, rs) := hrun
    have hrest : ∀ fuel ≥ max enough enough',
        ∃ rs', rs = r :: rs' ∧ run (perform fuel) rest s₁ = some (t, rs') := by
      intro fuel hfuel
      have h := hrun fuel (Nat.le_trans (Nat.le_max_right _ _) hfuel)
      rw [run, hop fuel (Nat.le_trans (Nat.le_max_left _ _) hfuel)] at h
      cases hlater : run (perform fuel) rest s₁ with
      | none => simp [hlater] at h
      | some last =>
          simp only [bind, Option.bind_some, hlater, pure, Option.some.injEq, Prod.mk.injEq] at h
          exact ⟨last.2, h.2.symm, by rw [← h.1]⟩
    obtain ⟨rs', rfl, -⟩ := hrest _ (Nat.le_refl _)
    refine ⟨rs', rfl, max enough enough', fun fuel hfuel => ?_⟩
    obtain ⟨rs'', heq, hlater⟩ := hrest fuel hfuel
    show run (perform fuel) rest s₁ = _
    rw [hlater, (List.cons.inj heq).2]
  · intro hrest
    obtain ⟨rs', rfl, enough', hrest⟩ := hrest
    have hrest : ∀ fuel ≥ enough', run (perform fuel) rest s₁ = some (t, rs') := hrest
    refine ⟨max enough enough', fun fuel hfuel => ?_⟩
    show run (perform fuel) (op :: rest) s = _
    rw [run, hop fuel (Nat.le_trans (Nat.le_max_left _ _) hfuel)]
    simp only [bind, Option.bind_some, hrest fuel (Nat.le_trans (Nat.le_max_right _ _) hfuel), pure]

/-- An operation that does not end. -/
theorem not_ends_run_cons (hop : ∃ enough, ∀ fuel ≥ enough, perform fuel s op = none) :
    ¬ Ends (fun fuel => run (perform fuel) (op :: rest) s) (t, rs) := by
  obtain ⟨enough, hop⟩ := hop
  intro hrun
  obtain ⟨enough', hrun⟩ := hrun
  have h : run (perform (max enough enough')) (op :: rest) s = some (t, rs) := hrun _ (Nat.le_max_right _ _)
  rw [run, hop _ (Nat.le_max_left _ _)] at h
  cases h

end

/-! ## Implementations -/

/-- The keys of an implementation on the way of some operations meet the guard. -/
def Guarded (perform : Nat → σ → Op K V → Option (σ × Result V)) (Guard : σ → Op K V → Prop) :
    List (Op K V) → σ → Prop
  | [], _ => True
  | op :: rest, s =>
      Guard s op ∧ ∀ s₁ r, Ends (fun fuel => perform fuel s op) (s₁, r) → Guarded perform Guard rest s₁

section

variable [DecidableEq K]

/-- An implementation of a map that meets its purpose where the guard holds. -/
structure Implements (perform : Nat → σ → Op K V → Option (σ × Result V)) (content : σ → K → V → Prop)
    (Represents : σ → (K → Option V) → Prop) (Guard : σ → Op K V → Prop) : Prop where
  content : ∀ s f, Represents s f → ∀ k v, content s k v ↔ f k = some v
  meets : ∀ s f op, Represents s f → Guard s op →
    ∃ s₁, Ends (fun fuel => perform fuel s op) (s₁, (op.act f).2) ∧ Represents s₁ (op.act f).1
  misses : ∀ s f op, Represents s f → ¬ Guard s op → (∃ enough, ∀ fuel ≥ enough, perform fuel s op = none) ∨
    ∃ k s₁, op = .remove k ∧ (f k).isSome ∧ Ends (fun fuel => perform fuel s op) (s₁, .changed true) ∧
      Represents s₁ f

/-- An implementation whose guard always holds. -/
theorem Implements.of_guard {perform : Nat → σ → Op K V → Option (σ × Result V)} {content : σ → K → V → Prop}
    {Represents : σ → (K → Option V) → Prop} {Guard : σ → Op K V → Prop}
    (h : Implements perform content Represents Guard) (hguard : ∀ s op, Guard s op) :
    Implements perform content Represents fun _ _ => True :=
  ⟨h.content, fun s f op hs _ => h.meets s f op hs (hguard s op), fun _ _ _ _ hnot => absurd trivial hnot⟩

end

/-! ## Renaming -/

/-- The key of an operation. -/
def Op.key : Op K V → K
  | .insert k _ => k
  | .remove k => k
  | .find k => k

/-- The same operation with the new key. -/
def Op.rename (φ : K → K') : Op K V → Op K' V
  | .insert k v => .insert (φ k) v
  | .remove k => .remove (φ k)
  | .find k => .find (φ k)

/-- A map and the same map with the new keys. -/
structure Corresponds (φ : K → K') (f : K → Option V) (f' : K' → Option V) : Prop where
  image : ∀ k, f' (φ k) = f k
  only : ∀ k', (f' k').isSome → ∃ k, φ k = k'

/-- The runs on both sides end with the same results, and with corresponding contents. -/
def SameRuns (perform : Nat → σ → Op K V → Option (σ × Result V)) (content : σ → K → V → Prop)
    (perform' : Nat → σ' → Op K' V → Option (σ' × Result V)) (content' : σ' → K' → V → Prop) (φ : K → K')
    (ops : List (Op K V)) (s : σ) (s' : σ') : Prop :=
  ∃ t t' rs, Ends (fun fuel => run (perform fuel) ops s) (t, rs) ∧
    Ends (fun fuel => run (perform' fuel) (ops.map (Op.rename φ)) s') (t', rs) ∧
    ∀ k' v, content' t' k' v ↔ ∃ k, φ k = k' ∧ content t k v

section

variable [DecidableEq K] [DecidableEq K'] {φ : K → K'} {f : K → Option V} {f' : K' → Option V}
  {op : Op K V} {k : K}

/-- Operations keep the correspondence. -/
theorem Corresponds.act (h : Corresponds φ f f') (hφ : Function.Injective φ) (op : Op K V) :
    ((op.rename φ).act f').2 = (op.act f).2 ∧ Corresponds φ (op.act f).1 ((op.rename φ).act f').1 := by
  have hupdate : ∀ (k : K) (x : Option V),
      Corresponds φ (Function.update f k x) (Function.update f' (φ k) x) := by
    refine fun k x => ⟨fun k₁ => ?_, fun k' hk' => ?_⟩
    · simp only [Function.update_apply, hφ.eq_iff, h.image]
    · by_cases heq : k' = φ k
      · exact ⟨k, heq.symm⟩
      · rw [Function.update_of_ne heq] at hk'
        exact h.only k' hk'
  cases op with
  | insert k v =>
      rw [Op.rename, Op.act_insert, Op.act_insert, h.image]
      refine ⟨rfl, ?_⟩
      by_cases hsome : (f k).isSome
      · simpa only [if_pos hsome] using h
      · simpa only [if_neg hsome] using hupdate k (some v)
  | remove k =>
      rw [Op.rename, Op.act_remove, Op.act_remove, h.image]
      refine ⟨rfl, ?_⟩
      by_cases hsome : (f k).isSome
      · simpa only [if_pos hsome] using hupdate k none
      · simpa only [if_neg hsome] using h
  | find k => exact ⟨by rw [Op.rename, Op.act, Op.act, h.image], h⟩

/-- An operation with another key. -/
theorem Op.act_of_ne (hk : op.key ≠ k) : (op.act f).1 k = f k := by
  cases op with
  | insert k₁ v =>
      rw [Op.act_insert]
      by_cases hsome : (f k₁).isSome
      · simp [hsome]
      · simp only [if_neg hsome]
        exact Function.update_of_ne (Ne.symm hk) ..
  | remove k₁ =>
      rw [Op.act_remove]
      by_cases hsome : (f k₁).isSome
      · simp only [if_pos hsome]
        exact Function.update_of_ne (Ne.symm hk) ..
      · simp [hsome]
  | find k₁ => rfl

/-- An operation tells whether its key is there. -/
theorem Op.act_ne (hk : (f op.key).isSome) (hk' : f' (φ op.key) = none) :
    (op.act f).2 ≠ ((op.rename φ).act f').2 := by
  obtain ⟨v, hv⟩ := Option.isSome_iff_exists.mp hk
  cases op with
  | insert k v' => simp_all [Op.rename, Op.act_insert, Op.key]
  | remove k => simp_all [Op.rename, Op.act_remove, Op.key]
  | find k => simp_all [Op.rename, Op.act, Op.key]

end

section

variable [DecidableEq K] [DecidableEq K'] {φ : K → K'}
  {perform : Nat → σ → Op K V → Option (σ × Result V)} {content : σ → K → V → Prop}
  {Represents : σ → (K → Option V) → Prop} {Guard : σ → Op K V → Prop}
  {perform' : Nat → σ' → Op K' V → Option (σ' × Result V)} {content' : σ' → K' → V → Prop}
  {Represents' : σ' → (K' → Option V) → Prop} {ops : List (Op K V)} {s : σ} {s' : σ'} {f : K → Option V}
  {f' : K' → Option V} {k : K}

/-- A key that is on one side only is seen by the next operation with this key, or in the contents at the end. -/
theorem not_sameRuns (himpl : Implements perform content Represents Guard)
    (himpl' : Implements perform' content' Represents' fun _ _ => True) (hφ : Function.Injective φ)
    (h : Represents s f) (h' : Represents' s' f') (hk : (f k).isSome) (hk' : f' (φ k) = none) :
    ¬ SameRuns perform content perform' content' φ ops s s' := by
  induction ops generalizing s s' f f' with
  | nil =>
      intro hsame
      obtain ⟨t, t', rs, hrun, hrun', hcontent⟩ := hsame
      have ht : t = s := congrArg Prod.fst (hrun.unique ⟨0, fun _ _ => rfl⟩)
      have ht' : t' = s' := congrArg Prod.fst (hrun'.unique ⟨0, fun _ _ => rfl⟩)
      subst ht
      subst ht'
      obtain ⟨v, hv⟩ := Option.isSome_iff_exists.mp hk
      have hv' := (himpl'.content _ _ h' (φ k) v).mp
        ((hcontent (φ k) v).mpr ⟨k, rfl, (himpl.content _ _ h k v).mpr hv⟩)
      rw [hk'] at hv'
      cases hv'
  | cons op rest ih =>
      intro hsame
      obtain ⟨t, t', rs, hrun, hrun', hcontent⟩ := hsame
      obtain ⟨s₁', hop', h₁'⟩ := himpl'.meets s' f' (op.rename φ) h' trivial
      obtain ⟨rs', hrs, hrest'⟩ := (ends_run_cons hop').mp hrun'
      -- The operation has the result of the map `f`, and leaves `k` in it unless it is an operation on `k`.
      have hstep : ∃ s₁ f₁, Ends (fun fuel => perform fuel s op) (s₁, (op.act f).2) ∧ Represents s₁ f₁ ∧
          (op.key ≠ k → f₁ k = f k) := by
        by_cases hguard : Guard s op
        · obtain ⟨s₁, hop, h₁⟩ := himpl.meets s f op h hguard
          exact ⟨s₁, _, hop, h₁, fun hne => Op.act_of_ne hne⟩
        · cases himpl.misses s f op h hguard with
          | inl hnone => exact absurd hrun (not_ends_run_cons hnone)
          | inr hstale =>
              obtain ⟨k₁, s₁, rfl, hsome, hop, h₁⟩ := hstale
              refine ⟨s₁, f, ?_, h₁, fun _ => rfl⟩
              rw [Op.act_remove, hsome]
              exact hop
      obtain ⟨s₁, f₁, hop, h₁, hkeep⟩ := hstep
      obtain ⟨rs'', hrs', hrest⟩ := (ends_run_cons hop).mp hrun
      rw [hrs] at hrs'
      obtain ⟨hresult, rfl⟩ := List.cons.inj hrs'
      by_cases hkey : op.key = k
      · subst hkey
        exact Op.act_ne hk hk' hresult.symm
      · refine ih h₁ h₁' (by rw [hkeep hkey]; exact hk) ?_ ⟨t, t', rs', hrest, hrest', hcontent⟩
        rw [Op.act_of_ne, hk']
        intro heq
        exact hkey (hφ (by cases op <;> exact heq))

/-- The runs on both sides are the same if and only if the guards hold on the way. -/
theorem sameRuns_iff (himpl : Implements perform content Represents Guard)
    (himpl' : Implements perform' content' Represents' fun _ _ => True) (hφ : Function.Injective φ)
    (h : Represents s f) (h' : Represents' s' f') (hcorr : Corresponds φ f f') :
    SameRuns perform content perform' content' φ ops s s' ↔ Guarded perform Guard ops s := by
  induction ops generalizing s s' f f' with
  | nil =>
      refine iff_of_true ⟨s, s', [], ⟨0, fun _ _ => rfl⟩, ⟨0, fun _ _ => rfl⟩, fun k' v => ?_⟩ trivial
      rw [himpl'.content _ _ h']
      constructor
      · intro hv
        obtain ⟨k, rfl⟩ := hcorr.only k' (by rw [hv]; rfl)
        exact ⟨k, rfl, (himpl.content _ _ h k v).mpr (by rw [← hcorr.image, hv])⟩
      · intro hv
        obtain ⟨k, rfl, hv⟩ := hv
        rw [hcorr.image]
        exact (himpl.content _ _ h k v).mp hv
  | cons op rest ih =>
      obtain ⟨s₁', hop', h₁'⟩ := himpl'.meets s' f' (op.rename φ) h' trivial
      obtain ⟨hresult, hcorr₁⟩ := hcorr.act hφ op
      by_cases hguard : Guard s op
      · obtain ⟨s₁, hop, h₁⟩ := himpl.meets s f op h hguard
        have hrest := ih h₁ h₁' hcorr₁
        have hguarded : Guarded perform Guard (op :: rest) s ↔ Guarded perform Guard rest s₁ := by
          rw [Guarded, and_iff_right hguard]
          refine ⟨fun hall => hall s₁ _ hop, fun hs₁ s₂ r hs₂ => ?_⟩
          rw [(Prod.mk.inj (hs₂.unique hop)).1]
          exact hs₁
        rw [hguarded, ← hrest]
        constructor
        · intro hsame
          obtain ⟨t, t', rs, hrun, hrun', hcontent⟩ := hsame
          obtain ⟨rs', rfl, hlater⟩ := (ends_run_cons hop).mp hrun
          obtain ⟨rs'', hrs, hlater'⟩ := (ends_run_cons hop').mp hrun'
          obtain ⟨-, rfl⟩ := List.cons.inj hrs
          exact ⟨t, t', rs', hlater, hlater', hcontent⟩
        · intro hsame
          obtain ⟨t, t', rs, hrun, hrun', hcontent⟩ := hsame
          refine ⟨t, t', (op.act f).2 :: rs, (ends_run_cons hop).mpr ⟨rs, rfl, hrun⟩, ?_, hcontent⟩
          exact (ends_run_cons hop').mpr ⟨rs, by rw [hresult], hrun'⟩
      · refine iff_of_false (fun hsame => ?_) fun hguarded => hguard hguarded.1
        obtain ⟨t, t', rs, hrun, hrun', hcontent⟩ := hsame
        cases himpl.misses s f op h hguard with
        | inl hnone => exact not_ends_run_cons hnone hrun
        | inr hstale =>
            -- The removal is reported, but only on the other side has it taken place.
            obtain ⟨k, s₁, rfl, hsome, hop, h₁⟩ := hstale
            obtain ⟨rs', rfl, hlater⟩ := (ends_run_cons hop).mp hrun
            obtain ⟨rs'', hrs, hlater'⟩ := (ends_run_cons hop').mp hrun'
            obtain ⟨-, rfl⟩ := List.cons.inj hrs
            refine not_sameRuns himpl himpl' hφ h₁ h₁' hsome ?_ ⟨t, t', rs', hlater, hlater', hcontent⟩
            rw [Op.rename, Op.act_remove, hcorr.image, if_pos hsome]
            exact Function.update_self ..

end

end OrderedMap
