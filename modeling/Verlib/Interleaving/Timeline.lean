import Verlib.OrderedMap.Map
import Mathlib.Data.List.Induction
import Mathlib.Data.List.Perm.Basic
import Mathlib.Order.Nat

/-!
# Operations that take effect at their stamps

Operations get stamps one after the other, and not always larger ones than before. The timeline orders them by their
stamps, and those with the same stamp as they came. An operation that comes late goes before operations that are
already there; if it commutes with them, it changes what they leave, and nothing else.
-/

namespace Interleaving

/-! ## The order of the stamps -/

section

variable {A : Type} {a b e : A × Nat} {es L : List (A × Nat)} {ls : Nat}

/-- After the operations whose stamps are not larger. -/
def place (L : List (A × Nat)) (e : A × Nat) : List (A × Nat) :=
  L.filter (fun x => x.2 ≤ e.2) ++ e :: L.filter (fun x => ¬ x.2 ≤ e.2)

/-- The operations in the order of their stamps. -/
def timeline (es : List (A × Nat)) : List (A × Nat) := es.foldl place []

/-- The operations up to a stamp. -/
def upTo (L : List (A × Nat)) (ls : Nat) : List A := (L.filter fun x => x.2 ≤ ls).map Prod.fst

theorem timeline_concat : timeline (es ++ [e]) = place (timeline es) e := by
  rw [timeline, List.foldl_append]
  rfl

theorem place_perm : (place L e).Perm (e :: L) := by
  have hfilter : ∀ x : A × Nat, decide (¬ x.2 ≤ e.2) = !decide (x.2 ≤ e.2) := fun x => decide_not
  refine List.perm_middle.trans (List.Perm.cons e ?_)
  rw [funext hfilter]
  exact List.filter_append_perm _ L

theorem timeline_perm (es : List (A × Nat)) : (timeline es).Perm es := by
  induction es using List.reverseRecOn with
  | nil => exact List.Perm.refl []
  | append_singleton es e ih =>
      rw [timeline_concat]
      refine place_perm.trans ((List.Perm.cons e ih).trans ?_)
      exact (List.perm_append_singleton e es).symm

theorem place_sorted (h : L.Pairwise fun a b => a.2 ≤ b.2) : (place L e).Pairwise fun a b => a.2 ≤ b.2 := by
  refine List.pairwise_append.mpr ⟨h.filter _, List.pairwise_cons.mpr ⟨fun x hx => ?_, h.filter _⟩, fun x hx y hy => ?_⟩
  · exact (not_le.mp (of_decide_eq_true (List.mem_filter.mp hx).2)).le
  · have hxe : x.2 ≤ e.2 := of_decide_eq_true (List.mem_filter.mp hx).2
    cases List.mem_cons.mp hy with
    | inl hy => rwa [hy]
    | inr hy => exact hxe.trans (not_le.mp (of_decide_eq_true (List.mem_filter.mp hy).2)).le

theorem timeline_sorted (es : List (A × Nat)) : (timeline es).Pairwise fun a b => a.2 ≤ b.2 := by
  induction es using List.reverseRecOn with
  | nil => exact List.Pairwise.nil
  | append_singleton es e ih =>
      rw [timeline_concat]
      exact place_sorted ih

/-- What is placed does not change the order of the others. -/
theorem place_sublist (hab : a.2 ≤ b.2) (h : [a, b].Sublist L) : [a, b].Sublist (place L e) := by
  by_cases hb : b.2 ≤ e.2
  · have hboth : [a, b].filter (fun x => x.2 ≤ e.2) = [a, b] := by
      rw [List.filter_eq_self]
      intro x hx
      refine decide_eq_true ?_
      cases List.mem_cons.mp hx with
      | inl hx => exact hx ▸ hab.trans hb
      | inr hx => exact List.mem_singleton.mp hx ▸ hb
    have hsub := h.filter fun x => x.2 ≤ e.2
    rw [hboth] at hsub
    exact hsub.trans (List.sublist_append_left ..)
  · have hbmem : b ∈ L.filter fun x => ¬ x.2 ≤ e.2 :=
      List.mem_filter.mpr ⟨h.subset (by simp), decide_eq_true hb⟩
    by_cases ha : a.2 ≤ e.2
    · have hamem : a ∈ L.filter fun x => x.2 ≤ e.2 := List.mem_filter.mpr ⟨h.subset (by simp), decide_eq_true ha⟩
      exact (List.singleton_sublist.mpr hamem).append (List.singleton_sublist.mpr (List.mem_cons_of_mem e hbmem))
    · have hboth : [a, b].filter (fun x => ¬ x.2 ≤ e.2) = [a, b] := by
        rw [List.filter_eq_self]
        intro x hx
        refine decide_eq_true ?_
        cases List.mem_cons.mp hx with
        | inl hx => exact hx ▸ ha
        | inr hx => exact List.mem_singleton.mp hx ▸ hb
      have hsub := h.filter fun x => ¬ x.2 ≤ e.2
      rw [hboth] at hsub
      exact hsub.trans ((List.sublist_cons_self e _).trans (List.sublist_append_right ..))

/-- Operations that came in the order of their stamps stay in this order. -/
theorem timeline_sublist (hab : a.2 ≤ b.2) (h : [a, b].Sublist es) : [a, b].Sublist (timeline es) := by
  induction es using List.reverseRecOn with
  | nil => cases h
  | append_singleton es e ih =>
      rw [timeline_concat]
      have hrev : [b, a].Sublist (e :: es.reverse) := by
        simpa using h.reverse
      cases hrev with
      | cons _ hrev => exact place_sublist hab (ih (by simpa using hrev.reverse))
      | cons_cons _ hrev =>
          have ha : a ∈ timeline es := (timeline_perm es).mem_iff.mpr (by simpa using hrev)
          have hamem : a ∈ (timeline es).filter fun x => x.2 ≤ b.2 := List.mem_filter.mpr ⟨ha, decide_eq_true hab⟩
          exact (List.singleton_sublist.mpr hamem).append (List.singleton_sublist.mpr List.mem_cons_self)

/-- The operations up to an earlier stamp. -/
theorem upTo_place_of_lt (h : ls < e.2) : upTo (place L e) ls = upTo L ls := by
  have hdrop : (L.filter fun x => ¬ x.2 ≤ e.2).filter (fun x => x.2 ≤ ls) = [] := by
    refine List.filter_eq_nil_iff.mpr fun x hx hle => ?_
    have hgt : ¬ x.2 ≤ e.2 := of_decide_eq_true (List.mem_filter.mp hx).2
    exact hgt ((of_decide_eq_true hle).trans h.le)
  have hkeep : (L.filter fun x => x.2 ≤ e.2).filter (fun x => x.2 ≤ ls) = L.filter fun x => x.2 ≤ ls := by
    rw [List.filter_filter]
    refine List.filter_congr fun x _ => ?_
    by_cases hx : x.2 ≤ ls
    · simp [hx, hx.trans h.le]
    · simp [hx]
  rw [upTo, upTo, place, List.filter_append, List.filter_cons_of_neg (by simpa using h), hdrop, hkeep, List.append_nil]

/-- A sorted list is cut at a stamp. -/
theorem filter_split (t : Nat) (hL : L.Pairwise fun a b => a.2 ≤ b.2) :
    (L.filter fun x => x.2 ≤ t) ++ (L.filter fun x => ¬ x.2 ≤ t) = L := by
  induction L with
  | nil => rfl
  | cons x L ih =>
      obtain ⟨hx, hL⟩ := List.pairwise_cons.mp hL
      by_cases hle : x.2 ≤ t
      · rw [List.filter_cons_of_pos (by simpa using hle), List.filter_cons_of_neg (by simpa using hle), List.cons_append,
          ih hL]
      · have hnone : L.filter (fun x => x.2 ≤ t) = [] :=
          List.filter_eq_nil_iff.mpr fun y hy hyt => hle ((hx y hy).trans (of_decide_eq_true hyt))
        have hall : L.filter (fun x => ¬ x.2 ≤ t) = L :=
          List.filter_eq_self.mpr fun y hy => decide_eq_true fun hyt => hle ((hx y hy).trans hyt)
        rw [List.filter_cons_of_neg (by simpa using hle), List.filter_cons_of_pos (by simpa using hle), hnone, hall]
        rfl

/-- The operations up to its own stamp, or a later one: there are some before it and some after it. -/
theorem upTo_place (hL : L.Pairwise fun a b => a.2 ≤ b.2) (h : e.2 ≤ ls) : ∃ xs ys, upTo L ls = xs ++ ys ∧
    upTo (place L e) ls = xs ++ e.1 :: ys ∧ ∀ o ∈ ys, ∃ t, e.2 < t ∧ (o, t) ∈ L := by
  refine ⟨upTo (L.filter fun x => x.2 ≤ e.2) ls, upTo (L.filter fun x => ¬ x.2 ≤ e.2) ls, ?_, ?_, fun o ho => ?_⟩
  · rw [upTo, upTo, upTo, ← List.map_append, ← List.filter_append, filter_split e.2 hL]
  · rw [upTo, upTo, upTo, place, List.filter_append, List.filter_cons_of_pos (by simpa using h), List.map_append]
    rfl
  · obtain ⟨x, hx, rfl⟩ := List.mem_map.mp ho
    have hx := List.mem_filter.mp (List.mem_filter.mp hx).1
    exact ⟨x.2, not_le.mp (of_decide_eq_true hx.2), hx.1⟩

end

/-! ## Their effects -/

section

open OrderedMap

variable {O M R : Type} {act : M → O → M × R} {ok : R} {m m' m₁ m₂ : M} {o : O} {xs ys : List O}

/-- The operations take effect one after the other: all results are `ok`. -/
def Plays (act : M → O → M × R) (ok : R) (os : List O) (m m' : M) : Prop :=
  (acts act os m).1 = m' ∧ ∀ r ∈ (acts act os m).2, r = ok

theorem plays_nil : Plays act ok [] m m' ↔ m = m' := ⟨fun h => h.1, fun h => ⟨h, fun _ hr => by cases hr⟩⟩

theorem plays_cons : Plays act ok (o :: xs) m m' ↔ ∃ m₁, act m o = (m₁, ok) ∧ Plays act ok xs m₁ m' := by
  constructor
  · intro h
    obtain ⟨hlast, hok⟩ := h
    have hr : (act m o).2 = ok := hok _ List.mem_cons_self
    exact ⟨(act m o).1, Prod.ext rfl hr, hlast, fun r hr => hok r (List.mem_cons_of_mem _ hr)⟩
  · intro h
    obtain ⟨m₁, hact, hlast, hok⟩ := h
    refine ⟨?_, fun r hr => ?_⟩
    · show (acts act xs (act m o).1).1 = m'
      rw [hact]
      exact hlast
    · have hr : r ∈ (act m o).2 :: (acts act xs (act m o).1).2 := hr
      rw [hact] at hr
      obtain rfl | hr := List.mem_cons.mp hr
      · rfl
      · exact hok r hr

theorem plays_append : Plays act ok (xs ++ ys) m m' ↔ ∃ m₁, Plays act ok xs m m₁ ∧ Plays act ok ys m₁ m' := by
  induction xs generalizing m with
  | nil =>
      constructor
      · exact fun h => ⟨m, plays_nil.mpr rfl, h⟩
      · intro h
        obtain ⟨m₁, hm, h⟩ := h
        rwa [plays_nil.mp hm]
  | cons x xs ih =>
      rw [List.cons_append, plays_cons]
      constructor
      · intro h
        obtain ⟨m₂, hact, h⟩ := h
        obtain ⟨m₁, hxs, hys⟩ := ih.mp h
        exact ⟨m₁, plays_cons.mpr ⟨m₂, hact, hxs⟩, hys⟩
      · intro h
        obtain ⟨m₁, hxs, hys⟩ := h
        obtain ⟨m₂, hact, hxs⟩ := plays_cons.mp hxs
        exact ⟨m₂, hact, ih.mpr ⟨m₁, hxs, hys⟩⟩

/-- An operation that takes effect after others, and commutes with them, can take effect before them. -/
theorem Plays.before (hcomm : ∀ x ∈ ys, ∀ m m₁ m₂, act m x = (m₁, ok) → act m₁ o = (m₂, ok) →
      ∃ m', act m o = (m', ok) ∧ act m' x = (m₂, ok))
    (h : Plays act ok ys m m₁) (ho : act m₁ o = (m₂, ok)) : Plays act ok (o :: ys) m m₂ := by
  induction ys generalizing m with
  | nil =>
      rw [plays_nil.mp h]
      exact plays_cons.mpr ⟨m₂, ho, plays_nil.mpr rfl⟩
  | cons x ys ih =>
      obtain ⟨mx, hx, h⟩ := plays_cons.mp h
      have hrest := ih (fun y hy => hcomm y (List.mem_cons_of_mem x hy)) h
      obtain ⟨mo, hxo, hys⟩ := plays_cons.mp hrest
      obtain ⟨m', ho', hx'⟩ := hcomm x List.mem_cons_self m mx mo hx hxo
      exact plays_cons.mpr ⟨m', ho', plays_cons.mpr ⟨mo, hx', hys⟩⟩

/-- An operation takes its place in the timeline. -/
theorem Plays.place {L : List (O × Nat)} {e : O × Nat} {ls : Nat} (hL : L.Pairwise fun a b => a.2 ≤ b.2) (hle : e.2 ≤ ls)
    (hcomm : ∀ x ∈ L, e.2 < x.2 → ∀ m m₁ m₂, act m x.1 = (m₁, ok) → act m₁ e.1 = (m₂, ok) →
      ∃ m', act m e.1 = (m', ok) ∧ act m' x.1 = (m₂, ok))
    (h : Plays act ok (upTo L ls) m m₁) (he : act m₁ e.1 = (m₂, ok)) :
    Plays act ok (upTo (Interleaving.place L e) ls) m m₂ := by
  obtain ⟨xs, ys, hold, hnew, hys⟩ := upTo_place hL hle
  rw [hold] at h
  rw [hnew]
  obtain ⟨mid, hxs, h⟩ := plays_append.mp h
  refine plays_append.mpr ⟨mid, hxs, Plays.before (fun x hx => ?_) h he⟩
  obtain ⟨t, hlt, hmem⟩ := hys x hx
  exact hcomm (x, t) hmem hlt

end

end Interleaving
