import Mathlib.Data.Set.Card

/-!
# Loops that collect

A loop runs its body for every element of a list. A round either fails, and then so does the loop, or yields some
values; the loop yields the values of all its rounds, one round after the other. A walk in increasing order counts what it
meets.
-/

namespace Walk

variable {ι κ α β : Type}

/-- The loop over a list; `none` is a failure. -/
def collect (body : ι → Option (List α)) : List ι → Option (List α)
  | [] => some []
  | i :: rest => do
      let first ← body i
      let later ← collect body rest
      pure (first ++ later)

section

variable {body : ι → Option (List α)} {l : List ι}

/-- A loop fails in the round that fails. -/
theorem collect_eq_none : collect body l = none ↔ ∃ i ∈ l, body i = none := by
  induction l with
  | nil => simp [collect]
  | cons i rest ih =>
      simp only [collect, List.mem_cons, exists_eq_or_imp, ← ih]
      cases body i with
      | none => simp
      | some first =>
          cases collect body rest with
          | none => simp
          | some later => simp

/-- What a loop yields, if its rounds yield `g`. -/
theorem collect_eq_some {g : ι → List α} {calls : List α} (h : collect body l = some calls)
    (hbody : ∀ i ∈ l, ∀ xs, body i = some xs → xs = g i) : calls = l.flatMap g := by
  induction l generalizing calls with
  | nil =>
      cases h
      rfl
  | cons i rest ih =>
      rw [List.forall_mem_cons] at hbody
      cases hfirst : body i with
      | none => simp [collect, hfirst] at h
      | some first =>
          cases hlater : collect body rest with
          | none => simp [collect, hfirst, hlater] at h
          | some later =>
              simp only [collect, hfirst, hlater, bind, Option.bind_some, pure, Option.some.injEq] at h
              rw [← h, List.flatMap_cons, hbody.1 first hfirst, ih hlater hbody.2]

/-- A loop that skips some rounds. -/
theorem collect_filter (p : ι → Bool) :
    collect body (l.filter p) = collect (fun i => if p i then body i else some []) l := by
  induction l with
  | nil => rfl
  | cons i rest ih =>
      rw [collect]
      cases hp : p i with
      | false =>
          rw [List.filter_cons_of_neg (by simp [hp]), ih]
          cases collect (fun i => if p i = true then body i else some []) rest <;> rfl
      | true => rw [List.filter_cons_of_pos hp, collect, ih, if_pos rfl]

/-- A loop over what is found in another list. -/
theorem collect_filterMap (f : κ → Option ι) (l : List κ) :
    collect body (l.filterMap f) = collect (fun j => (f j).elim (some []) body) l := by
  induction l with
  | nil => rfl
  | cons j rest ih =>
      rw [collect]
      cases hf : f j with
      | none =>
          rw [List.filterMap_cons_none hf, ih]
          cases collect (fun j => (f j).elim (some []) body) rest <;> rfl
      | some i => rw [List.filterMap_cons_some hf, collect, ih, Option.elim_some]

end

/-! ## Intervals -/

/-- The numbers from `sb` to `eb`. -/
theorem range'_eq_filter {sb eb m : Nat} (heb : eb < m) :
    List.range' sb (eb + 1 - sb) = (List.range m).filter fun b => decide (sb ≤ b ∧ b ≤ eb) := by
  by_cases hle : sb ≤ eb + 1
  · have hsplit : List.range m =
        List.range' 0 sb ++ (List.range' sb (eb + 1 - sb) ++ List.range' (eb + 1) (m - (eb + 1))) := by
      have hright := List.range'_append_1 (s := sb) (m := eb + 1 - sb) (n := m - (eb + 1))
      rw [Nat.add_sub_cancel' hle] at hright
      rw [hright, List.range_eq_range']
      have hleft := List.range'_append_1 (s := 0) (m := sb) (n := eb + 1 - sb + (m - (eb + 1)))
      rw [Nat.zero_add] at hleft
      rw [hleft]
      congr 1
      omega
    have hbefore : (List.range' 0 sb).filter (fun b => decide (sb ≤ b ∧ b ≤ eb)) = [] := by
      rw [List.filter_eq_nil_iff]
      intro b hb
      have hb' := List.mem_range'_1.mp hb
      simp only [decide_eq_true_eq]
      omega
    have hinside : (List.range' sb (eb + 1 - sb)).filter (fun b => decide (sb ≤ b ∧ b ≤ eb)) =
        List.range' sb (eb + 1 - sb) := by
      rw [List.filter_eq_self]
      intro b hb
      have hb' := List.mem_range'_1.mp hb
      simp only [decide_eq_true_eq]
      omega
    have hafter : (List.range' (eb + 1) (m - (eb + 1))).filter (fun b => decide (sb ≤ b ∧ b ≤ eb)) = [] := by
      rw [List.filter_eq_nil_iff]
      intro b hb
      have hb' := List.mem_range'_1.mp hb
      simp only [decide_eq_true_eq]
      omega
    rw [hsplit, List.filter_append, List.filter_append, hbefore, hinside, hafter, List.nil_append, List.append_nil]
  · rw [show eb + 1 - sb = 0 by omega, List.range'_zero, eq_comm, List.filter_eq_nil_iff]
    intro b _
    simp only [decide_eq_true_eq]
    omega

/-- A loop over the elements at some indices. -/
theorem collect_getElem? {l : List α} (s m : Nat) (h : s + m ≤ l.length) :
    collect (fun i => l[i]?.map fun a => [a]) (List.range' s m) = some ((l.drop s).take m) := by
  induction m generalizing s with
  | zero => rfl
  | succ m ih =>
      have hs : s < l.length := by omega
      rw [List.range'_succ, collect, ih (s + 1) (by omega), List.getElem?_eq_getElem hs, List.drop_eq_getElem_cons hs]
      rfl

/-- Dropping what yields nothing. -/
theorem flatMap_filter {p : α → Bool} {f : α → List β} {l : List α}
    (h : ∀ a ∈ l, p a = false → f a = []) : (l.filter p).flatMap f = l.flatMap f := by
  induction l with
  | nil => rfl
  | cons a rest ih =>
      rw [List.forall_mem_cons] at h
      rw [List.flatMap_cons, ← ih h.2]
      cases hp : p a with
      | false => rw [List.filter_cons_of_neg (by simp [hp]), h.1 hp, List.nil_append]
      | true => rw [List.filter_cons_of_pos hp, List.flatMap_cons]

/-- A walk that meets the elements of a set in increasing order meets each of them once. -/
theorem ncard_of_increasing [Preorder κ] {s : Set κ} {keys : List κ} (hmem : ∀ k, k ∈ s ↔ k ∈ keys)
    (hlt : keys.Pairwise fun a b => a < b) : s.ncard = keys.length := by
  classical
  have heq : s = (keys.toFinset : Set κ) := by
    apply Set.ext
    intro k
    rw [List.coe_toFinset]
    exact hmem k
  have hnodup : keys.Nodup := hlt.imp fun h => ne_of_lt h
  rw [heq, Set.ncard_coe_finset, List.toFinset_card_of_nodup hnodup]

end Walk
