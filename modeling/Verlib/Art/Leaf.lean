import Verlib.Art.Children
import Verlib.Art.Search

/-!
# Leaves

What the constructors of leaves and sparse nodes keep: entries stay sorted, `byte_num` is the first position where
the keys of a leaf differ, and the entries of a leaf with one entry too many are broken up into one leaf for each
byte.
-/

namespace Verlib.Art

open Verlib.Radix

variable {n : Nat} {V : Type}

/-! ## Entries -/

section

variable {keyVals : List (KV n V)} {k : Key n} {v : V}

/-- The search in a leaf finds the value of a key that is there. -/
theorem findIn_eq_some (hsorted : Sorted keyVals) : findIn keyVals k = some v ↔ ⟨k, v⟩ ∈ keyVals := by
  induction keyVals with
  | nil => simp [findIn]
  | cons kv rest ih =>
      obtain ⟨hfirst, hrest⟩ := List.pairwise_cons.mp hsorted
      rw [findIn, List.mem_cons]
      by_cases hlt : kv.key < k
      · rw [if_neg (not_not.mpr hlt), ih hrest]
        constructor
        · intro hmem
          exact .inr hmem
        · intro hmem
          cases hmem with
          | inl heq =>
              rw [← heq] at hlt
              exact absurd hlt (BitVec.lt_irrefl k)
          | inr hmem => exact hmem
      · rw [if_pos hlt]
        by_cases hgt : k < kv.key
        · rw [if_pos hgt]
          constructor
          · intro h
            cases h
          · intro hmem
            cases hmem with
            | inl heq =>
                rw [← heq] at hgt
                exact absurd hgt (BitVec.lt_irrefl k)
            | inr hmem => exact absurd (BitVec.lt_trans hgt (hfirst _ hmem)) (BitVec.lt_irrefl k)
        · have heq : kv.key = k := by
            rw [BitVec.lt_def] at hlt hgt
            exact BitVec.eq_of_toNat_eq (by omega)
          rw [if_neg hgt, Option.some.injEq]
          constructor
          · intro hv
            left
            rw [← heq, ← hv]
          · intro hmem
            cases hmem with
            | inl h => rw [← h]
            | inr hmem =>
                have habove := hfirst _ hmem
                rw [heq] at habove
                exact absurd habove (BitVec.lt_irrefl k)

/-- The search in a leaf succeeds if the key is there. -/
theorem findIn_isSome (hsorted : Sorted keyVals) : (findIn keyVals k).isSome = true ↔ ∃ kv ∈ keyVals, kv.key = k := by
  rw [Option.isSome_iff_exists]
  constructor
  · intro h
    obtain ⟨v, hv⟩ := h
    exact ⟨_, (findIn_eq_some hsorted).mp hv, rfl⟩
  · intro h
    obtain ⟨kv, hkv, rfl⟩ := h
    exact ⟨kv.value, (findIn_eq_some hsorted).mpr hkv⟩

/-- An insertion adds one entry. -/
theorem insertIn_perm (keyVals : List (KV n V)) (new : KV n V) : (insertIn keyVals new).Perm (new :: keyVals) := by
  induction keyVals with
  | nil => exact List.Perm.refl _
  | cons kv rest ih =>
      rw [insertIn]
      split
      · exact (ih.cons kv).trans (.swap new kv rest)
      · exact List.Perm.refl _

/-- The entries stay sorted. -/
theorem insertIn_sorted {new : KV n V} (hsorted : Sorted keyVals) (hnew : ∀ kv ∈ keyVals, kv.key ≠ new.key) :
    Sorted (insertIn keyVals new) := by
  induction keyVals with
  | nil => exact List.pairwise_singleton _ _
  | cons kv rest ih =>
      obtain ⟨hfirst, hrest⟩ := List.pairwise_cons.mp hsorted
      rw [insertIn]
      split
      next hlt =>
        refine List.pairwise_cons.mpr ⟨fun kv' hkv' => ?_, ih hrest fun kv hkv => hnew kv (List.mem_cons_of_mem _ hkv)⟩
        rw [(insertIn_perm rest new).mem_iff, List.mem_cons] at hkv'
        cases hkv' with
        | inl heq =>
            rw [heq]
            exact hlt
        | inr hkv' => exact hfirst kv' hkv'
      next hnlt =>
        have hlt : new.key < kv.key := by
          have hne := hnew kv List.mem_cons_self
          rw [BitVec.lt_def] at hnlt ⊢
          have hne' : kv.key.toNat ≠ new.key.toNat := fun h => hne (BitVec.eq_of_toNat_eq h)
          omega
        refine List.pairwise_cons.mpr ⟨fun kv' hkv' => ?_, hsorted⟩
        cases List.mem_cons.mp hkv' with
        | inl heq =>
            rw [heq]
            exact hlt
        | inr hkv' => exact BitVec.lt_trans hlt (hfirst kv' hkv')

/-- Sorted entries have distinct keys. -/
theorem Sorted.keys_nodup (hsorted : Sorted keyVals) : (keyVals.map KV.key).Nodup := by
  rw [List.Nodup, List.pairwise_map]
  refine List.Pairwise.imp (fun {a b} hlt heq => ?_) hsorted
  rw [heq] at hlt
  exact BitVec.lt_irrefl _ hlt

end

/-! ## `first_diff` -/

/-- The loop of `first_diff` stops at the first position where a key differs from the first one. -/
theorem firstDiffFrom_spec {first : KV n V} {rest : List (KV n V)} (fuel j : Nat) (hfuel : j + fuel = n)
    (hagree : ∀ kv ∈ rest, Agree kv.key first.key j) (hne : ∃ kv ∈ rest, kv.key ≠ first.key) :
    j ≤ firstDiffFrom first rest fuel j ∧ firstDiffFrom first rest fuel j < n ∧
      (∀ kv ∈ rest, Agree kv.key first.key (firstDiffFrom first rest fuel j)) ∧
      ∃ kv ∈ rest, getByte kv.key (firstDiffFrom first rest fuel j) ≠
        getByte first.key (firstDiffFrom first rest fuel j) := by
  induction fuel generalizing j with
  | zero =>
      obtain ⟨kv, hkv, hne⟩ := hne
      have hj : j = n := hfuel
      have hsame := hagree kv hkv
      rw [hj] at hsame
      exact absurd (eq_of_agree hsame) hne
  | succ fuel ih =>
      rw [firstDiffFrom]
      split
      next hany =>
        rw [List.any_eq_true] at hany
        obtain ⟨kv, hkv, hdiff⟩ := hany
        have hbyte : getByte kv.key j ≠ getByte first.key j := by
          simpa [show ¬ n ≤ j from by omega] using hdiff
        exact ⟨le_rfl, by omega, hagree, kv, hkv, hbyte⟩
      next hnone =>
        have hsame : ∀ kv ∈ rest, getByte kv.key j = getByte first.key j := by
          intro kv hkv
          by_contra hbyte
          refine hnone (List.any_eq_true.mpr ⟨kv, hkv, ?_⟩)
          simp [hbyte]
        obtain ⟨hle, hlt, hagree', hdiff⟩ :=
          ih (j + 1) (by omega) fun kv hkv => agree_succ.mpr ⟨hagree kv hkv, hsame kv hkv⟩
        exact ⟨by omega, hlt, hagree', hdiff⟩

/-- `first_diff` from a position below which all keys agree. -/
theorem firstDiff_spec {first : KV n V} {rest : List (KV n V)} {bytePos : Nat} (hbytePos : bytePos ≤ n)
    (hsorted : Sorted (first :: rest)) (hagree : ∀ kv ∈ rest, Agree kv.key first.key bytePos) :
    bytePos ≤ firstDiff bytePos first rest ∧ Differ (firstDiff bytePos first rest) (first :: rest) := by
  cases rest with
  | nil => exact ⟨hbytePos, fun _ => rfl, fun h => absurd rfl h⟩
  | cons second rest =>
      have hne : second.key ≠ first.key := by
        intro heq
        have hlt := (List.pairwise_cons.mp hsorted).1 second List.mem_cons_self
        rw [heq] at hlt
        exact BitVec.lt_irrefl _ hlt
      obtain ⟨hle, hlt, hsame, kv, hkv, hdiff⟩ :=
        firstDiffFrom_spec (n - bytePos) bytePos (by omega) hagree ⟨second, List.mem_cons_self, hne⟩
      have hfirst : ∀ a ∈ first :: second :: rest, Agree a.key first.key (firstDiff bytePos first (second :: rest)) := by
        intro a ha
        cases List.mem_cons.mp ha with
        | inl heq =>
            rw [heq]
            exact Agree.refl _ _
        | inr ha => exact hsame a ha
      refine ⟨hle, fun h => ?_, fun _ => ⟨hlt, fun a ha b hb => (hfirst a ha).trans (hfirst b hb).symm, ?_⟩⟩
      · simp at h
      · exact ⟨kv, List.mem_cons_of_mem _ hkv, first, List.mem_cons_self, hdiff⟩

/-! ## Constructors of leaves -/

section

variable {keyVals : List (KV n V)} {pos bytePos : Nat} {P : Key n → Prop} {k : Key n} {v : V}

/-- A leaf with one entry. -/
theorem singleton_good (hpos : pos ≤ n) (hk : P k) : Good (Node.singleton k v) pos P := by
  refine ⟨⟨List.pairwise_singleton _ _, le_rfl, by simp [maxBigLeafSize], ?_, ⟨_, List.mem_singleton_self _, rfl⟩,
    fun _ => rfl, fun h => absurd rfl h⟩, hpos, fun kv hkv => ?_⟩
  · simp [maxSmallLeafSize]
  · rw [List.mem_singleton.mp hkv]
    exact hk

/-- The entries of a new leaf. -/
theorem multiLeaf_entries (big : Bool) (bytePos : Nat) (keyVals : List (KV n V)) :
    (Node.multiLeaf big bytePos keyVals).entries = keyVals := by
  cases keyVals with
  | nil => rfl
  | cons first rest => rfl

/-- A new leaf for sorted entries that agree below a position. -/
theorem multiLeaf_good {big : Bool} (hsorted : Sorted keyVals) (hne : keyVals ≠ [])
    (hsize : keyVals.length ≤ maxBigLeafSize) (hbig : big = false ↔ keyVals.length ≤ maxSmallLeafSize)
    (hagree : ∀ a ∈ keyVals, ∀ b ∈ keyVals, Agree a.key b.key bytePos) (hpos : pos ≤ bytePos) (hbytePos : bytePos ≤ n)
    (hP : ∀ kv ∈ keyVals, P kv.key) : Good (Node.multiLeaf big bytePos keyVals) pos P := by
  cases keyVals with
  | nil => exact absurd rfl hne
  | cons first rest =>
      obtain ⟨hle, hdiffer⟩ := firstDiff_spec hbytePos hsorted
        fun kv hkv => hagree kv (List.mem_cons_of_mem _ hkv) first List.mem_cons_self
      refine ⟨⟨hsorted, ?_, hsize, hbig, ⟨first, List.mem_cons_self, rfl⟩, hdiffer⟩, Nat.le_trans hpos hle, hP⟩
      simp

/-- `new_leaf` chooses the size. -/
theorem newLeaf_good (hsorted : Sorted keyVals) (hne : keyVals ≠ []) (hsize : keyVals.length ≤ maxBigLeafSize)
    (hagree : ∀ a ∈ keyVals, ∀ b ∈ keyVals, Agree a.key b.key bytePos) (hpos : pos ≤ bytePos) (hbytePos : bytePos ≤ n)
    (hP : ∀ kv ∈ keyVals, P kv.key) : Good (Node.newLeaf bytePos keyVals) pos P := by
  refine multiLeaf_good hsorted hne hsize ?_ hagree hpos hbytePos hP
  rw [decide_eq_false_iff_not, Nat.not_lt]

/-- Entries into which a key goes that differs from the key of the leaf at `stop`. -/
theorem differ_insertIn {big : Bool} {key : Key n} {byteNum stop : Nat} (hleaf : LeafOk big key byteNum keyVals)
    (hmatched : Matched k key byteNum stop) (hnew : ∀ kv ∈ keyVals, kv.key ≠ k) :
    Differ stop (insertIn keyVals ⟨k, v⟩) ∧ stop ≤ n := by
  have hmem : ∀ a ∈ insertIn keyVals ⟨k, v⟩, a = ⟨k, v⟩ ∨ a ∈ keyVals := by
    intro a ha
    exact List.mem_cons.mp ((insertIn_perm keyVals ⟨k, v⟩).mem_iff.mp ha)
  have hin : ∀ a, a = ⟨k, v⟩ ∨ a ∈ keyVals → a ∈ insertIn keyVals ⟨k, v⟩ := by
    intro a ha
    exact (insertIn_perm keyVals ⟨k, v⟩).mem_iff.mpr (List.mem_cons.mpr ha)
  obtain ⟨old, hold, rfl⟩ := hleaf.key_mem
  have hagree : ∀ a ∈ keyVals, Agree a.key old.key byteNum := by
    intro a ha
    by_cases hone : keyVals.length = 1
    · obtain ⟨only, rfl⟩ := List.length_eq_one_iff.mp hone
      rw [List.mem_singleton.mp ha, List.mem_singleton.mp hold]
      exact Agree.refl _ _
    · exact (hleaf.differ.2 hone).2.1 a ha old hold
  have hlt : stop < n ∧ ∃ a ∈ insertIn keyVals ⟨k, v⟩, ∃ b ∈ insertIn keyVals ⟨k, v⟩,
      getByte a.key stop ≠ getByte b.key stop := by
    by_cases hstop : stop < byteNum
    · refine ⟨?_, ⟨k, v⟩, hin _ (.inl rfl), old, hin _ (.inr hold), hmatched.differ hstop⟩
      by_cases hone : keyVals.length = 1
      · rw [← hleaf.differ.1 hone]
        exact hstop
      · exact Nat.lt_trans hstop (hleaf.differ.2 hone).1
    · have heq : stop = byteNum := Nat.le_antisymm hmatched.le (Nat.le_of_not_lt hstop)
      by_cases hone : keyVals.length = 1
      · -- the only key has no byte left to differ in
        have hsame := hmatched.agree
        rw [heq, hleaf.differ.1 hone] at hsame
        exact absurd (eq_of_agree hsame).symm (hnew old hold)
      · obtain ⟨hbound, _, a, ha, b, hb, hdiff⟩ := hleaf.differ.2 hone
        rw [heq]
        exact ⟨hbound, a, hin a (.inr ha), b, hin b (.inr hb), hdiff⟩
  have hall : ∀ a ∈ insertIn keyVals ⟨k, v⟩, Agree a.key old.key stop := by
    intro a ha
    cases hmem a ha with
    | inl heq =>
        rw [heq]
        exact hmatched.agree
    | inr ha => exact (hagree a ha).mono hmatched.le
  refine ⟨⟨fun hone => ?_, fun _ => ⟨hlt.1, fun a ha b hb => (hall a ha).trans (hall b hb).symm, hlt.2⟩⟩,
    Nat.le_of_lt hlt.1⟩
  have hlen := (insertIn_perm keyVals ⟨k, v⟩).length_eq
  have hsize := hleaf.size_pos
  rw [hone, List.length_cons] at hlen
  omega

/-- Adding to a leaf that has room. -/
theorem addToLeaf_good {big big' : Bool} {key : Key n} {byteNum stop : Nat}
    (hgood : Good (.leaf big key byteNum keyVals) pos P) (hmatched : Matched k key byteNum stop)
    (hnew : ∀ kv ∈ keyVals, kv.key ≠ k) (hroom : keyVals.length < maxBigLeafSize)
    (hbig : big' = false ↔ keyVals.length < maxSmallLeafSize) (hpos : pos ≤ stop) (hk : P k) :
    Good (Node.addToLeaf big' stop key keyVals k v) pos P := by
  have hperm := insertIn_perm keyVals ⟨k, v⟩
  have hlen := hperm.length_eq
  rw [List.length_cons] at hlen
  obtain ⟨old, hold, hkey⟩ := hgood.1.key_mem
  refine ⟨⟨insertIn_sorted hgood.1.sorted hnew, by omega, by omega, by rw [hbig, hlen]; omega,
    ⟨old, hperm.mem_iff.mpr (List.mem_cons_of_mem _ hold), hkey⟩,
    (differ_insertIn hgood.1 hmatched hnew).1⟩, hpos, fun kv hkv => ?_⟩
  cases List.mem_cons.mp (hperm.mem_iff.mp hkv) with
  | inl heq =>
      rw [heq]
      exact hk
  | inr hkv => exact hgood.2.2 kv hkv

end

/-! ## Breaking a leaf up -/

/-- The runs of equal values of a nondecreasing function: together they are the entries, each run has one value,
and the values grow from run to run. -/
theorem splitRuns_spec (gb : KV n V → Nat) (run : List (KV n V)) (byteval : Nat) (rest : List (KV n V))
    (hne : run ≠ []) (hrun : ∀ kv ∈ run, gb kv = byteval) (hle : ∀ kv ∈ rest, byteval ≤ gb kv)
    (hrest : rest.Pairwise fun a b => gb a ≤ gb b) :
    (Node.splitRuns gb run byteval rest).flatten = run ++ rest ∧
      (∀ r ∈ Node.splitRuns gb run byteval rest, r ≠ [] ∧ ∀ a ∈ r, byteval ≤ gb a ∧ ∀ b ∈ r, gb a = gb b) ∧
      (Node.splitRuns gb run byteval rest).Pairwise fun r r' => ∀ a ∈ r, ∀ b ∈ r', gb a < gb b := by
  induction rest generalizing run byteval with
  | nil =>
      refine ⟨by simp [Node.splitRuns], fun r hr => ?_, List.pairwise_singleton _ _⟩
      rw [List.mem_singleton.mp hr]
      exact ⟨hne, fun a ha => ⟨(hrun a ha).ge, fun b hb => by rw [hrun a ha, hrun b hb]⟩⟩
  | cons kv rest ih =>
      obtain ⟨hkv, hrest⟩ := List.pairwise_cons.mp hrest
      rw [Node.splitRuns]
      split
      next hdiff =>
        have hlt : byteval < gb kv := Nat.lt_of_le_of_ne (hle kv List.mem_cons_self) (Ne.symm hdiff)
        obtain ⟨hflat, hruns, hgrow⟩ := ih [kv] (gb kv) (List.cons_ne_nil _ _)
          (fun a ha => by rw [List.mem_singleton.mp ha]) hkv hrest
        refine ⟨by rw [List.flatten_cons, hflat, List.singleton_append], fun r hr => ?_,
          List.pairwise_cons.mpr ⟨fun r hr a ha b hb => ?_, hgrow⟩⟩
        · cases List.mem_cons.mp hr with
          | inl heq =>
              rw [heq]
              exact ⟨hne, fun a ha => ⟨(hrun a ha).ge, fun b hb => by rw [hrun a ha, hrun b hb]⟩⟩
          | inr hr =>
              exact ⟨(hruns r hr).1, fun a ha =>
                ⟨Nat.le_trans (Nat.le_of_lt hlt) ((hruns r hr).2 a ha).1, ((hruns r hr).2 a ha).2⟩⟩
        · rw [hrun a ha]
          exact Nat.lt_of_lt_of_le hlt ((hruns r hr).2 b hb).1
      next hsame =>
        rw [not_not] at hsame
        have hrun' : ∀ a ∈ run ++ [kv], gb a = byteval := by
          intro a ha
          cases List.mem_append.mp ha with
          | inl ha => exact hrun a ha
          | inr ha => rw [List.mem_singleton.mp ha, hsame]
        obtain ⟨hflat, hruns⟩ := ih (run ++ [kv]) byteval (by simp) hrun'
          (fun a ha => hle a (List.mem_cons_of_mem _ ha)) hrest
        refine ⟨?_, hruns⟩
        rw [hflat, List.append_assoc, List.singleton_append]

/-- The entries of an array of children, slot by slot. -/
theorem range_flatMap_getD (children : List (Node n V)) (f : Node n V → List (KV n V)) :
    (List.range children.length).flatMap (fun i => f (children.getD i .null)) = children.flatMap f := by
  induction children with
  | nil => rfl
  | cons c rest ih =>
      rw [List.length_cons, List.range_succ_eq_map, List.flatMap_cons, List.flatMap_map, List.flatMap_cons, ← ih]
      rfl

/-- A sparse node for children whose bytes grow. -/
theorem sparseOf_good {children : List (Node n V)} {byteNum pos : Nat} {P : Key n → Prop}
    (hsize : children.length ≤ maxSparseSize) (hpos : pos ≤ byteNum) (hlt : byteNum < n)
    (hP : P (children.headD .null).key)
    (hgrow : children.Pairwise fun c c' => getByte c.key byteNum < getByte c'.key byteNum)
    (hgood : ∀ c ∈ children, Good c (byteNum + 1)
      (Below (children.headD .null).key byteNum (getByte c.key byteNum))) :
    Good (Node.sparseOf byteNum children) pos P ∧
      (Node.sparseOf byteNum children).entries = children.flatMap Node.entries := by
  have hget : ∀ i, (h : i < children.length) → children.getD i .null = children[i] :=
    fun i h => List.getD_eq_getElem children .null h
  refine ⟨⟨Slots.ok_sparse hsize (fun i _ => getByte_lt _ _) (fun i j hij hj => ?_), hP, hpos, hlt, fun s hs => ?_⟩, ?_⟩
  · rw [hget i (by omega), hget j hj]
    exact Nat.ne_of_lt (List.pairwise_iff_getElem.mp hgrow i j (by omega) hj hij)
  · obtain ⟨hi, hkey⟩ := Slots.mem_pairs_sparse.mp hs
    rw [← hkey]
    simp only [hget s.2 hi]
    exact hgood _ (List.getElem_mem hi)
  · rw [Node.sparseOf, Node.entries, Slots.pairs, List.flatMap_map]
    exact range_flatMap_getD children Node.entries

/-- There are at most as many nonempty lists as there are elements in them. -/
theorem length_le_flatten {α : Type} (runs : List (List α)) (hne : ∀ r ∈ runs, r ≠ []) :
    runs.length ≤ runs.flatten.length := by
  induction runs with
  | nil => exact le_rfl
  | cons r runs ih =>
      have hr := List.length_pos_iff.mpr (hne r List.mem_cons_self)
      have hle := ih fun r hr => hne r (List.mem_cons_of_mem _ hr)
      rw [List.length_cons, List.flatten_cons, List.length_append]
      omega

/-- The entries of a leaf that is full, with one more, go to a sparse node: one leaf for each byte at the first
position where they differ. -/
theorem splitLeaf_good {entries : List (KV n V)} {bytePos pos : Nat} {P : Key n → Prop} (hsorted : Sorted entries)
    (hlen : entries.length = maxBigLeafSize + 1) (hdiffer : Differ bytePos entries) (hpos : pos ≤ bytePos)
    (hP : ∀ kv ∈ entries, P kv.key) :
    Good (Node.splitLeaf bytePos entries) pos P ∧ (Node.splitLeaf bytePos entries).entries = entries := by
  cases hentries : entries with
  | nil =>
      rw [hentries] at hlen
      cases hlen
  | cons first rest =>
      obtain ⟨hlt, hagree, x, hx, y, hy, hxy⟩ := hdiffer.2 (by rw [hlen]; decide)
      have hmono : entries.Pairwise fun a b => getByte a.key bytePos ≤ getByte b.key bytePos := by
        refine List.Pairwise.imp_of_mem (fun {a b} ha hb hab => ?_) hsorted
        exact getByte_le (hagree a ha b hb) hlt (BitVec.le_of_lt hab)
      rw [hentries] at hmono
      obtain ⟨hfirst, hrest⟩ := List.pairwise_cons.mp hmono
      obtain ⟨hflat, hruns, hgrow⟩ := splitRuns_spec (fun kv : KV n V => getByte kv.key bytePos) [first]
        (getByte first.key bytePos) rest (List.cons_ne_nil _ _) (fun a ha => by rw [List.mem_singleton.mp ha])
        hfirst hrest
      generalize hrunsEq : Node.splitRuns (fun kv : KV n V => getByte kv.key bytePos) [first]
        (getByte first.key bytePos) rest = runs at hflat hruns hgrow
      rw [List.singleton_append, ← hentries] at hflat
      have hsub : ∀ r ∈ runs, r.Sublist entries := by
        intro r hr
        rw [← hflat]
        exact List.sublist_flatten_of_mem hr
      have hshort : ∀ r ∈ runs, r.length ≤ maxBigLeafSize := by
        intro r hr
        by_contra hlong
        have hle := (hsub r hr).length_le
        have hall : r = entries := (hsub r hr).eq_of_length (by omega)
        rw [hall] at hr
        exact hxy (((hruns entries hr).2 x hx).2 y hy)
      have hcount : runs.length ≤ maxSparseSize := by
        have hle := length_le_flatten runs fun r hr => (hruns r hr).1
        rw [hflat, hlen] at hle
        exact Nat.le_trans hle (by decide)
      have hkey : ∀ r ∈ runs, ∃ kv ∈ r, (Node.newLeaf (bytePos + 1) r).key = kv.key := by
        intro r hr
        cases r with
        | nil => exact absurd rfl (hruns [] hr).1
        | cons kv r => exact ⟨kv, List.mem_cons_self, rfl⟩
      have hhead : ((runs.map (Node.newLeaf (bytePos + 1))).headD .null).key = first.key := by
        cases runs with
        | nil =>
            rw [← hflat] at hentries
            cases hentries
        | cons r runs =>
            cases r with
            | nil => exact absurd rfl (hruns [] List.mem_cons_self).1
            | cons kv r =>
                rw [← hflat] at hentries
                cases hentries
                rfl
      have hfirstMem : first ∈ entries := by
        rw [hentries]
        exact List.mem_cons_self
      have hbytes : (runs.map (Node.newLeaf (bytePos + 1))).Pairwise
          fun c c' => getByte c.key bytePos < getByte c'.key bytePos := by
        refine List.pairwise_map.mpr (hgrow.imp_of_mem fun {r r'} hr hr' h => ?_)
        obtain ⟨kv, hkv, hkv'⟩ := hkey r hr
        obtain ⟨kv', hmem', hkv''⟩ := hkey r' hr'
        rw [hkv', hkv'']
        exact h kv hkv kv' hmem'
      have hleaves : ∀ c ∈ runs.map (Node.newLeaf (bytePos + 1)),
          Good c (bytePos + 1) (Below first.key bytePos (getByte c.key bytePos)) := by
        intro c hc
        obtain ⟨r, hr, rfl⟩ := List.mem_map.mp hc
        obtain ⟨kv, hkv, hkv'⟩ := hkey r hr
        rw [hkv']
        refine newLeaf_good (hsorted.sublist (hsub r hr)) (hruns r hr).1 (hshort r hr) (fun a ha b hb => ?_) le_rfl
          (by omega) (fun a ha => ⟨hagree a ((hsub r hr).mem ha) first hfirstMem, ((hruns r hr).2 a ha).2 kv hkv⟩)
        exact agree_succ.mpr ⟨hagree a ((hsub r hr).mem ha) b ((hsub r hr).mem hb), ((hruns r hr).2 a ha).2 b hb⟩
      have hsplit : Node.splitLeaf bytePos (first :: rest) =
          Node.sparseOf bytePos (runs.map (Node.newLeaf (bytePos + 1))) := by
        rw [← hrunsEq]
        rfl
      have hPfirst := hP first hfirstMem
      rw [← hhead] at hleaves hPfirst
      obtain ⟨hgood, heq⟩ := sparseOf_good (by rw [List.length_map]; exact hcount) hpos hlt hPfirst hbytes hleaves
      rw [hsplit]
      refine ⟨hgood, ?_⟩
      have hid : runs.flatMap (fun r => (Node.newLeaf (bytePos + 1) r).entries) = runs.flatMap id :=
        List.flatMap_congr fun r _ => multiLeaf_entries _ _ _
      rw [heq, List.flatMap_map, hid, List.flatMap_id, ← hentries]
      exact hflat

/-! ## Cutting an edge, removing an entry -/

/-- A new sparse node on a cut edge. -/
theorem sparsePair_good {key k : Key n} {v : V} {byteNum' size stop pos : Nat} {slots : Slots} {ptr : Nat → Node n V}
    {P : Key n → Prop} (hgood : Good (.inner key byteNum' size slots ptr) pos P)
    (hmatched : Matched k key byteNum' stop) (hcut : stop < byteNum') (hpos : pos ≤ stop) :
    Good (Node.sparsePair stop (.inner key byteNum' size slots ptr) key (.singleton k v) k) pos P ∧
      (Node.sparsePair stop (.inner key byteNum' size slots ptr) key (.singleton k v) k).entries =
        (Node.inner key byteNum' size slots ptr).entries ++ [⟨k, v⟩] := by
  obtain ⟨hok, hkey, _, hlt, hchildren⟩ := hgood
  have hdiff := hmatched.differ hcut
  refine ⟨⟨Slots.ok_sparse (by decide) (fun i _ => ?_) (fun i j hij hj => ?_), hkey, hpos, by omega, fun s hs => ?_⟩, ?_⟩
  · split <;> exact getByte_lt _ _
  · rw [if_pos (by omega), if_neg (by omega)]
    exact Ne.symm hdiff
  · obtain ⟨hi, hbyte⟩ := Slots.mem_pairs_sparse.mp hs
    rw [← hbyte]
    by_cases hzero : s.2 = 0
    · rw [hzero]
      exact ⟨hok, ⟨Agree.refl _ _, rfl⟩, hcut, hlt, hchildren⟩
    · have hone : s.2 = 1 := by omega
      rw [hone]
      exact singleton_good (by omega) ⟨hmatched.agree, rfl⟩
  · show [(getByte key stop, 0), (getByte k stop, 1)].flatMap _ = _
    rw [List.flatMap_cons, List.flatMap_singleton]
    rfl

/-- Distinct keys: the entry of a key, and the others. -/
theorem filter_key_perm {keyVals : List (KV n V)} {k : Key n} {v : V} (hsorted : Sorted keyVals)
    (hmem : ⟨k, v⟩ ∈ keyVals) : keyVals.Perm (⟨k, v⟩ :: keyVals.filter fun kv => kv.key ≠ k) := by
  have hnodup := hsorted.keys_nodup
  obtain ⟨front, back, rfl⟩ := List.append_of_mem hmem
  have hothers : ∀ kv ∈ front ++ back, kv.key ≠ k := by
    intro kv hkv heq
    rw [(List.perm_middle.map KV.key).nodup_iff, List.map_cons, List.nodup_cons] at hnodup
    exact hnodup.1 (List.mem_map.mpr ⟨kv, hkv, heq⟩)
  have hfilter : (front ++ ⟨k, v⟩ :: back).filter (fun kv => kv.key ≠ k) = front ++ back := by
    rw [List.filter_append, List.filter_cons_of_neg (by simp), ← List.filter_append]
    exact List.filter_eq_self.mpr fun kv hkv => decide_eq_true (hothers kv hkv)
  rw [hfilter]
  exact List.perm_middle

/-- What is left of a leaf that loses a key. -/
theorem remainder_good {big : Bool} {key k : Key n} {byteNum pos : Nat} {keyVals : List (KV n V)}
    {P : Key n → Prop} {v : V} (hgood : Good (.leaf big key byteNum keyVals) pos P)
    (hmem : ⟨k, v⟩ ∈ keyVals) :
    Good (remainder (.leaf big key byteNum keyVals) k) pos P ∧
      keyVals.Perm (⟨k, v⟩ :: (remainder (.leaf big key byteNum keyVals) k).entries) := by
  obtain ⟨hleaf, hpos, hP⟩ := hgood
  have hperm := filter_key_perm hleaf.sorted hmem
  have hlen := hperm.length_eq
  rw [List.length_cons] at hlen
  rw [remainder]
  by_cases hone : keyVals.length = 1
  · rw [if_pos hone]
    have hnil := List.eq_nil_of_length_eq_zero (show (keyVals.filter fun kv => kv.key ≠ k).length = 0 by omega)
    rw [hnil] at hperm
    exact ⟨trivial, hperm⟩
  · have hsmaller : ∀ big', (big' = false ↔ (keyVals.filter fun kv => kv.key ≠ k).length ≤ maxSmallLeafSize) →
        Good (Node.removeFromLeaf big' byteNum keyVals k) pos P := by
      intro big' hbig
      have hsize := hleaf.size_pos
      have hbound := hleaf.size_le
      obtain ⟨hlt, hagree, _⟩ := hleaf.differ.2 hone
      refine multiLeaf_good (hleaf.sorted.sublist List.filter_sublist) (fun hnil => ?_) (by omega) hbig
        (fun a ha b hb => hagree a (List.mem_of_mem_filter ha) b (List.mem_of_mem_filter hb)) hpos (by omega)
        fun kv hkv => hP kv (List.mem_of_mem_filter hkv)
      rw [hnil, List.length_nil] at hlen
      omega
    rw [if_neg hone]
    split
    next hlarge =>
      refine ⟨hsmaller true (iff_of_false (by decide) ?_), ?_⟩
      · omega
      · rw [Node.removeFromLeaf, multiLeaf_entries]
        exact hperm
    next hsmall =>
      refine ⟨hsmaller false (iff_of_true rfl ?_), ?_⟩
      · omega
      · rw [Node.removeFromLeaf, multiLeaf_entries]
        exact hperm

end Verlib.Art
