import Mathlib.Order.WithBot
import Mathlib.Data.List.Basic
import Mathlib.Logic.Function.Basic

/-!
# Separated children

The children of a node in a search tree with many children: `size` children and the `size - 1` keys between them, both
as functions from their indices. The keys cut the interval of the node into one interval for each child. The operations
on such a node replace one or two children that are next to each other by one or two others.
-/

namespace Separated

variable {K α β : Type}

/-! ## Intervals -/

/-- The keys with a least and a largest element added. -/
abbrev Bound (K : Type) := WithBot (WithTop K)

/-- A key as a bound. -/
def ofKey (k : K) : Bound K := ((k : WithTop K) : WithBot (WithTop K))

section

variable [LinearOrder K]

@[simp]
theorem ofKey_lt_ofKey {a b : K} : ofKey a < ofKey b ↔ a < b := by
  rw [ofKey, ofKey, WithBot.coe_lt_coe, WithTop.coe_lt_coe]

@[simp]
theorem ofKey_le_ofKey {a b : K} : ofKey a ≤ ofKey b ↔ a ≤ b := by
  rw [ofKey, ofKey, WithBot.coe_le_coe, WithTop.coe_le_coe]

theorem ofKey_lt_top (a : K) : ofKey a < (⊤ : Bound K) :=
  WithBot.coe_lt_coe.mpr (WithTop.coe_lt_top a)

end

/-! ## Rows of children -/

/-- The children from left to right. -/
def row (size : Nat) (f : Nat → α) : List α := (List.range size).map f

section

variable {size m n pos : Nat} {f g : Nat → α} {a b : α}

theorem mem_row : a ∈ row size f ↔ ∃ i < size, f i = a := by
  simp [row]

theorem row_congr (h : ∀ i < size, f i = g i) : row size f = row size g :=
  List.map_congr_left fun i hi => h i (List.mem_range.mp hi)

theorem row_succ : row (size + 1) f = row size f ++ [f size] := by
  simp [row, List.range_succ]

/-- A row in two parts. -/
theorem row_add : row (m + n) f = row m f ++ row n fun i => f (i + m) := by
  induction n with
  | zero => exact (List.append_nil _).symm
  | succ n ih => rw [← Nat.add_assoc, row_succ, ih, row_succ, List.append_assoc, Nat.add_comm n m]

/-- A row around one child. -/
theorem row_at (h : pos < size) :
    row size f = row pos f ++ f pos :: row (size - (pos + 1)) fun i => f (i + (pos + 1)) := by
  have hsize : size = pos + 1 + (size - (pos + 1)) := by omega
  conv_lhs => rw [hsize]
  rw [row_add, row_succ, List.append_assoc]
  rfl

/-- A row around two children. -/
theorem row_at_two (h : pos + 1 < size) :
    row size f = row pos f ++ f pos :: f (pos + 1) :: row (size - (pos + 2)) fun i => f (i + (pos + 2)) := by
  have hsize : size = pos + 1 + 1 + (size - (pos + 2)) := by omega
  conv_lhs => rw [hsize]
  rw [row_add, row_succ, row_succ, List.append_assoc, List.append_assoc]
  rfl

/-- Two rows, one after the other. -/
def append (m : Nat) (f g : Nat → α) : Nat → α := fun i => if i < m then f i else g (i - m)

/-- One child is replaced by two. -/
def replaceByTwo (pos : Nat) (a b : α) (f : Nat → α) : Nat → α := fun i =>
  if i < pos then f i else if i = pos then a else if i = pos + 1 then b else f (i - 1)

/-- Two children are replaced by one. -/
def replaceTwo (pos : Nat) (a : α) (f : Nat → α) : Nat → α := fun i =>
  if i < pos then f i else if i = pos then a else f (i + 1)

/-- Two children are replaced by two. -/
def setTwo (pos : Nat) (a b : α) (f : Nat → α) : Nat → α := fun i =>
  if i = pos then a else if i = pos + 1 then b else f i

theorem row_append : row (m + n) (append m f g) = row m f ++ row n g := by
  rw [row_add]
  congr 1
  · exact row_congr fun i hi => if_pos hi
  · exact row_congr fun i _ => by simp [append]

theorem row_replaceByTwo (h : pos < size) :
    row (size + 1) (replaceByTwo pos a b f) =
      row pos f ++ a :: b :: row (size - (pos + 1)) fun i => f (i + (pos + 1)) := by
  have hlt : pos + 1 < size + 1 := by omega
  rw [row_at_two hlt, show size + 1 - (pos + 2) = size - (pos + 1) by omega]
  congr 1
  · exact row_congr fun i hi => if_pos hi
  · congr 1
    · simp [replaceByTwo]
    · congr 1
      · simp [replaceByTwo]
      · refine row_congr fun i _ => ?_
        rw [replaceByTwo, if_neg (by omega), if_neg (by omega), if_neg (by omega)]
        rfl

theorem row_replaceTwo (h : pos + 1 < size) :
    row (size - 1) (replaceTwo pos a f) =
      row pos f ++ a :: row (size - (pos + 2)) fun i => f (i + (pos + 2)) := by
  have hlt : pos < size - 1 := by omega
  rw [row_at hlt, show size - 1 - (pos + 1) = size - (pos + 2) by omega]
  congr 1
  · exact row_congr fun i hi => if_pos hi
  · congr 1
    · simp [replaceTwo]
    · refine row_congr fun i _ => ?_
      rw [replaceTwo, if_neg (by omega), if_neg (by omega)]
      rfl

theorem row_setTwo (h : pos + 1 < size) :
    row size (setTwo pos a b f) =
      row pos f ++ a :: b :: row (size - (pos + 2)) fun i => f (i + (pos + 2)) := by
  rw [row_at_two h]
  congr 1
  · refine row_congr fun i hi => ?_
    rw [setTwo, if_neg (by omega), if_neg (by omega)]
  · congr 1
    · simp [setTwo]
    · congr 1
      · simp [setTwo]
      · refine row_congr fun i _ => ?_
        rw [setTwo, if_neg (by omega), if_neg (by omega)]

theorem row_update (h : pos < size) :
    row size (Function.update f pos a) =
      row pos f ++ a :: row (size - (pos + 1)) fun i => f (i + (pos + 1)) := by
  rw [row_at h, Function.update_self]
  congr 1
  · exact row_congr fun i hi => Function.update_of_ne (by omega) a f
  · congr 1
    exact row_congr fun i _ => Function.update_of_ne (by omega) a f

end

/-! ## Keys between children -/

/-- The keys of two rows, and the key between them. -/
def appendKeys (m : Nat) (f : Nat → K) (k : K) (g : Nat → K) : Nat → K := fun i =>
  if i < m - 1 then f i else if i = m - 1 then k else g (i - m)

/-- The keys with one more. -/
def insertKey (pos : Nat) (k : K) (f : Nat → K) : Nat → K := fun i =>
  if i < pos then f i else if i = pos then k else f (i - 1)

/-- The keys with one less. -/
def dropKey (pos : Nat) (f : Nat → K) : Nat → K := fun i => if i < pos then f i else f (i + 1)

/-- The keys with one replaced. -/
def setKey (pos : Nat) (k : K) (f : Nat → K) : Nat → K := fun i => if i = pos then k else f i

variable [LinearOrder K]

/-- The keys of a node cut its interval from `lo` to `hi` at `b`, and every child satisfies `P` in its own interval. -/
structure Cuts (P : Bound K → Bound K → α → Prop) (lo hi : Bound K) (size : Nat) (keys : Nat → K) (children : Nat → α)
    (b : Nat → Bound K) : Prop where
  first : b 0 = lo
  last : b size = hi
  key : ∀ i, i + 1 < size → b (i + 1) = ofKey (keys i)
  lt : ∀ i < size, b i < b (i + 1)
  child : ∀ i < size, P (b i) (b (i + 1)) (children i)

/-- The children of a node, separated by its keys. -/
structure Chain (P : Bound K → Bound K → α → Prop) (lo hi : Bound K) (size : Nat) (keys : Nat → K)
    (children : Nat → α) : Prop where
  size_pos : 0 < size
  cuts : ∃ b, Cuts P lo hi size keys children b

section

variable {P Q : Bound K → Bound K → α → Prop} {lo mid hi : Bound K} {size m n pos : Nat} {keys keys' : Nat → K}
  {children children' : Nat → α} {b : Nat → Bound K} {k : K} {c c1 c2 : α}

/-- The cuts are strictly sorted. -/
theorem Cuts.lt_of_lt (h : Cuts P lo hi size keys children b) {i j : Nat} (hij : i < j) (hj : j ≤ size) :
    b i < b j := by
  induction j with
  | zero => omega
  | succ j ih =>
      by_cases heq : i = j
      · rw [heq]
        exact h.lt j (by omega)
      · exact (ih (by omega) (by omega)).trans (h.lt j (by omega))

theorem Cuts.le_of_le (h : Cuts P lo hi size keys children b) {i j : Nat} (hij : i ≤ j) (hj : j ≤ size) :
    b i ≤ b j := by
  by_cases heq : i = j
  · rw [heq]
  · exact (h.lt_of_lt (by omega) hj).le

/-- The intervals of the children have no key in common. -/
theorem Cuts.eq_of_mem (h : Cuts P lo hi size keys children b) {x : Bound K} {i j : Nat} (hi' : i < size)
    (hj : j < size) (hxi : b i ≤ x ∧ x < b (i + 1)) (hxj : b j ≤ x ∧ x < b (j + 1)) : i = j := by
  have hle : ∀ {i j}, i < size → j < size → (b i ≤ x ∧ x < b (i + 1)) → (b j ≤ x ∧ x < b (j + 1)) → i ≤ j := by
    intro i j hi' hj hxi hxj
    by_contra hlt
    exact absurd (hxj.2.trans_le ((h.le_of_le (by omega) hi'.le).trans hxi.1)) (lt_irrefl x)
  exact le_antisymm (hle hi' hj hxi hxj) (hle hj hi' hxj hxi)

/-- The children satisfy a weaker property. -/
theorem Cuts.imp (h : Cuts P lo hi size keys children b) (himp : ∀ lo hi c, P lo hi c → Q lo hi c) :
    Cuts Q lo hi size keys children b :=
  ⟨h.first, h.last, h.key, h.lt, fun i hi => himp _ _ _ (h.child i hi)⟩

theorem Chain.imp (h : Chain P lo hi size keys children) (himp : ∀ lo hi c, P lo hi c → Q lo hi c) :
    Chain Q lo hi size keys children := by
  obtain ⟨hpos, b, hb⟩ := h
  exact ⟨hpos, b, hb.imp himp⟩

/-- The interval of a node is not empty. -/
theorem Chain.lt (h : Chain P lo hi size keys children) : lo < hi := by
  obtain ⟨hpos, b, hb⟩ := h
  rw [← hb.first, ← hb.last]
  exact hb.lt_of_lt hpos le_rfl

/-- The keys are strictly sorted. -/
theorem Chain.sorted (h : Chain P lo hi size keys children) {i j : Nat} (hij : i < j) (hj : j + 1 < size) :
    keys i < keys j := by
  obtain ⟨-, b, hb⟩ := h
  rw [← ofKey_lt_ofKey, ← hb.key i (by omega), ← hb.key j hj]
  exact hb.lt_of_lt (by omega) (by omega)

/-- A key lies inside of the interval of its node. -/
theorem Chain.key_mem (h : Chain P lo hi size keys children) {i : Nat} (hi' : i + 1 < size) :
    lo < ofKey (keys i) ∧ ofKey (keys i) < hi := by
  obtain ⟨-, b, hb⟩ := h
  rw [← hb.key i hi', ← hb.first, ← hb.last]
  exact ⟨hb.lt_of_lt (by omega) (by omega), hb.lt_of_lt (by omega) le_rfl⟩

/-- The interval of the child for a key. -/
theorem Cuts.interval (hb : Cuts P lo hi size keys children b) {i : Nat} (hi' : i < size) (hlo : lo ≤ ofKey k)
    (hhi : ofKey k < hi) (hbefore : ∀ j < i, keys j ≤ k) (hafter : i + 1 < size → k < keys i) :
    b i ≤ ofKey k ∧ ofKey k < b (i + 1) := by
  constructor
  · cases i with
    | zero =>
        rw [hb.first]
        exact hlo
    | succ i =>
        rw [hb.key i hi', ofKey_le_ofKey]
        exact hbefore i (by omega)
  · by_cases hlast : i + 1 < size
    · rw [hb.key i hlast, ofKey_lt_ofKey]
      exact hafter hlast
    · rw [show i + 1 = size by omega, hb.last]
      exact hhi

/-- One child is replaced by one. -/
theorem Cuts.update (hb : Cuts P lo hi size keys children b) (hc : P (b pos) (b (pos + 1)) c) :
    Cuts P lo hi size keys (Function.update children pos c) b := by
  refine ⟨hb.first, hb.last, hb.key, hb.lt, fun i hi => ?_⟩
  by_cases heq : i = pos
  · rw [heq, Function.update_self]
    exact hc
  · rw [Function.update_of_ne heq]
    exact hb.child i hi

/-- The first children of a node. -/
theorem Chain.left (h : Chain P lo hi size keys children) (hpos : 0 < n) (hn : n < size) :
    Chain P lo (ofKey (keys (n - 1))) n keys children := by
  obtain ⟨-, b, hb⟩ := h
  refine ⟨hpos, b, hb.first, ?_, fun i hi => hb.key i (by omega), fun i hi => hb.lt i (by omega),
    fun i hi => hb.child i (by omega)⟩
  rw [← hb.key (n - 1) (by omega), Nat.sub_add_cancel hpos]

/-- The last children of a node. -/
theorem Chain.right (h : Chain P lo hi size keys children) (hpos : 0 < n) (hn : n < size) :
    Chain P (ofKey (keys (n - 1))) hi (size - n) (fun i => keys (i + n)) fun i => children (i + n) := by
  obtain ⟨-, b, hb⟩ := h
  refine ⟨by omega, fun i => b (i + n), ?_, ?_, fun i hi => ?_, fun i hi => ?_, fun i hi => ?_⟩
  · show b (0 + n) = _
    rw [← hb.key (n - 1) (by omega), Nat.sub_add_cancel hpos, Nat.zero_add]
  · show b (size - n + n) = hi
    rw [Nat.sub_add_cancel hn.le, hb.last]
  · show b (i + 1 + n) = _
    rw [show i + 1 + n = i + n + 1 by omega, hb.key (i + n) (by omega)]
  · show b (i + n) < b (i + 1 + n)
    rw [show i + 1 + n = i + n + 1 by omega]
    exact hb.lt (i + n) (by omega)
  · show P (b (i + n)) (b (i + 1 + n)) _
    rw [show i + 1 + n = i + n + 1 by omega]
    exact hb.child (i + n) (by omega)

/-- Two children with a key between them. -/
theorem Chain.two (hlo : lo < ofKey k) (hhi : ofKey k < hi) (hc1 : P lo (ofKey k) c1) (hc2 : P (ofKey k) hi c2) :
    Chain P lo hi 2 (fun _ => k) fun i => if i = 0 then c1 else c2 := by
  refine ⟨by omega, fun i => if i = 0 then lo else if i = 1 then ofKey k else hi, rfl, rfl, fun i hi => ?_,
    fun i hi => ?_, fun i hi => ?_⟩
  · obtain rfl : i = 0 := by omega
    rfl
  · cases i with
    | zero => exact hlo
    | succ i =>
        obtain rfl : i = 0 := by omega
        exact hhi
  · cases i with
    | zero => exact hc1
    | succ i =>
        obtain rfl : i = 0 := by omega
        exact hc2

/-- Two nodes with a key between them. -/
theorem Chain.append {f g : Nat → K} {cs ds : Nat → α} (h : Chain P lo (ofKey k) m f cs)
    (h' : Chain P (ofKey k) hi n g ds) :
    Chain P lo hi (m + n) (appendKeys m f k g) (append m cs ds) := by
  obtain ⟨hm, b, hb⟩ := h
  obtain ⟨hn, d, hd⟩ := h'
  have hmiddle : b m = d 0 := by rw [hb.last, hd.first]
  refine ⟨by omega, fun i => if i < m then b i else d (i - m), ?_, ?_, fun i hi => ?_, fun i hi => ?_, fun i hi => ?_⟩
  · rw [if_pos hm, hb.first]
  · rw [if_neg (by omega), Nat.add_sub_cancel_left, hd.last]
  · by_cases hlt : i + 1 < m
    · rw [if_pos hlt, hb.key i hlt, appendKeys, if_pos (by omega)]
    · rw [if_neg hlt, appendKeys, if_neg (by omega)]
      by_cases heq : i + 1 = m
      · rw [if_pos (by omega), heq, Nat.sub_self, hd.first]
      · rw [if_neg (by omega), show i + 1 - m = i - m + 1 by omega, hd.key (i - m) (by omega)]
  · by_cases hlt : i + 1 < m
    · rw [if_pos (by omega), if_pos hlt]
      exact hb.lt i (by omega)
    · by_cases heq : i + 1 = m
      · rw [if_pos (by omega), if_neg hlt, show i + 1 - m = 0 by omega, ← hmiddle, ← heq]
        exact hb.lt i (by omega)
      · rw [if_neg (by omega), if_neg hlt, show i + 1 - m = i - m + 1 by omega]
        exact hd.lt (i - m) (by omega)
  · by_cases hlt : i + 1 < m
    · rw [if_pos (by omega), if_pos hlt, Separated.append, if_pos (by omega)]
      exact hb.child i (by omega)
    · by_cases heq : i + 1 = m
      · rw [if_pos (by omega), if_neg hlt, show i + 1 - m = 0 by omega, ← hmiddle, ← heq, Separated.append,
          if_pos (by omega)]
        exact hb.child i (by omega)
      · rw [if_neg (by omega), if_neg hlt, show i + 1 - m = i - m + 1 by omega, Separated.append, if_neg (by omega)]
        exact hd.child (i - m) (by omega)

/-- One child is replaced by two with a key between them. -/
theorem Cuts.replaceByTwo (hb : Cuts P lo hi size keys children b) (hpos : pos < size) (hlo : b pos < ofKey k)
    (hhi : ofKey k < b (pos + 1)) (hc1 : P (b pos) (ofKey k) c1) (hc2 : P (ofKey k) (b (pos + 1)) c2) :
    Chain P lo hi (size + 1) (insertKey pos k keys) (replaceByTwo pos c1 c2 children) := by
  refine ⟨by omega, fun i => if i ≤ pos then b i else if i = pos + 1 then ofKey k else b (i - 1), ?_, ?_,
    fun i hi => ?_, fun i hi => ?_, fun i hi => ?_⟩
  · rw [if_pos (Nat.zero_le _), hb.first]
  · rw [if_neg (by omega), if_neg (by omega), Nat.add_sub_cancel, hb.last]
  · by_cases hlt : i < pos
    · rw [if_pos (by omega), insertKey, if_pos hlt, hb.key i (by omega)]
    · rw [if_neg (by omega), insertKey, if_neg hlt]
      by_cases heq : i = pos
      · rw [if_pos (by omega), if_pos heq]
      · rw [if_neg (by omega), if_neg heq, ← hb.key (i - 1) (by omega), show i + 1 - 1 = i - 1 + 1 by omega]
  · by_cases hlt : i < pos
    · rw [if_pos (by omega), if_pos (by omega)]
      exact hb.lt i (by omega)
    · by_cases heq : i = pos
      · rw [if_pos (by omega), if_neg (by omega), if_pos (by omega), heq]
        exact hlo
      · by_cases heq' : i = pos + 1
        · rw [if_neg (by omega), if_pos heq', if_neg (by omega), if_neg (by omega), heq']
          exact hhi
        · rw [if_neg (by omega), if_neg heq', if_neg (by omega), if_neg (by omega),
            show i + 1 - 1 = i - 1 + 1 by omega]
          exact hb.lt (i - 1) (by omega)
  · by_cases hlt : i < pos
    · rw [if_pos (by omega), if_pos (by omega), Separated.replaceByTwo, if_pos hlt]
      exact hb.child i (by omega)
    · by_cases heq : i = pos
      · rw [if_pos (by omega), if_neg (by omega), if_pos (by omega), Separated.replaceByTwo, if_neg hlt, if_pos heq,
          heq]
        exact hc1
      · by_cases heq' : i = pos + 1
        · rw [if_neg (by omega), if_pos heq', if_neg (by omega), if_neg (by omega), Separated.replaceByTwo, if_neg hlt,
            if_neg heq, if_pos heq', heq']
          exact hc2
        · rw [if_neg (by omega), if_neg heq', if_neg (by omega), if_neg (by omega), Separated.replaceByTwo, if_neg hlt,
            if_neg heq, if_neg heq', show i + 1 - 1 = i - 1 + 1 by omega]
          exact hb.child (i - 1) (by omega)

/-- Two children are replaced by one. -/
theorem Cuts.replaceTwo (hb : Cuts P lo hi size keys children b) (hpos : pos + 1 < size)
    (hc : P (b pos) (b (pos + 2)) c) :
    Chain P lo hi (size - 1) (dropKey pos keys) (replaceTwo pos c children) := by
  refine ⟨by omega, fun i => if i ≤ pos then b i else b (i + 1), ?_, ?_, fun i hi => ?_, fun i hi => ?_, fun i hi => ?_⟩
  · rw [if_pos (Nat.zero_le _), hb.first]
  · rw [if_neg (by omega), Nat.sub_add_cancel (by omega), hb.last]
  · by_cases hlt : i < pos
    · rw [if_pos (by omega), dropKey, if_pos hlt, hb.key i (by omega)]
    · rw [if_neg (by omega), dropKey, if_neg hlt, hb.key (i + 1) (by omega)]
  · by_cases hlt : i < pos
    · rw [if_pos (by omega), if_pos (by omega)]
      exact hb.lt i (by omega)
    · by_cases heq : i = pos
      · rw [if_pos (by omega), if_neg (by omega), heq]
        exact hb.lt_of_lt (by omega) (by omega)
      · rw [if_neg (by omega), if_neg (by omega)]
        exact hb.lt (i + 1) (by omega)
  · by_cases hlt : i < pos
    · rw [if_pos (by omega), if_pos (by omega), Separated.replaceTwo, if_pos hlt]
      exact hb.child i (by omega)
    · by_cases heq : i = pos
      · rw [if_pos (by omega), if_neg (by omega), Separated.replaceTwo, if_neg hlt, if_pos heq, heq]
        exact hc
      · rw [if_neg (by omega), if_neg (by omega), Separated.replaceTwo, if_neg hlt, if_neg heq]
        exact hb.child (i + 1) (by omega)

/-- Two children are replaced by two with another key between them. -/
theorem Cuts.setTwo (hb : Cuts P lo hi size keys children b) (hpos : pos + 1 < size) (hlo : b pos < ofKey k)
    (hhi : ofKey k < b (pos + 2)) (hc1 : P (b pos) (ofKey k) c1) (hc2 : P (ofKey k) (b (pos + 2)) c2) :
    Chain P lo hi size (setKey pos k keys) (setTwo pos c1 c2 children) := by
  refine ⟨by omega, fun i => if i = pos + 1 then ofKey k else b i, ?_, ?_, fun i hi => ?_, fun i hi => ?_,
    fun i hi => ?_⟩
  · rw [if_neg (by omega), hb.first]
  · rw [if_neg (by omega), hb.last]
  · rw [setKey]
    by_cases heq : i = pos
    · rw [if_pos (by omega), if_pos heq]
    · rw [if_neg (by omega), if_neg heq, hb.key i hi]
  · by_cases heq : i = pos
    · rw [if_neg (by omega), if_pos (by omega), heq]
      exact hlo
    · by_cases heq' : i = pos + 1
      · rw [if_pos heq', if_neg (by omega), heq']
        exact hhi
      · rw [if_neg heq', if_neg (by omega)]
        exact hb.lt i hi
  · by_cases heq : i = pos
    · rw [if_neg (by omega), if_pos (by omega), Separated.setTwo, if_pos heq, heq]
      exact hc1
    · by_cases heq' : i = pos + 1
      · rw [if_pos heq', if_neg (by omega), Separated.setTwo, if_neg heq, if_pos heq', heq']
        exact hc2
      · rw [if_neg heq', if_neg (by omega), Separated.setTwo, if_neg heq, if_neg heq']
        exact hb.child i hi

end

end Separated
