import Mathlib.Data.List.Perm.Subperm
import Mathlib.Data.List.Nodup
import Verlib.Flock.Scalar

/-!
# Tagged words

`tagged<V>` keeps a tag in the top 16 bits of a word: a count of 15 bits and, below it, the panic bit. A store
takes the next count. Where the count comes round, `next` looks at the words that are announced, and takes a
count that is not announced for the location, with the panic bit set.

The words are 64-bit vectors and the masks are those of the source. `tag` is the top 16 bits as a number, and every
test of `next` is a test of the tags of its words (`Packed.high`).
-/

namespace Verlib.Flock.Tagged

open Packed

/-! ## The functions of the source -/

/-- Number of bits to use for tag (including panic bit). -/
def tagBits : Nat := 16

def topBit : IT := 1#64 <<< 63
def cntBit : IT := 1#64 <<< (64 - tagBits + 1)
def panicBit : IT := 1#64 <<< (64 - tagBits)
def dataMask : IT := panicBit - 1#64
def cntMask : IT := ~~~dataMask

/-- `inc_tag`; it avoids using 0. -/
def incTag (oldv : IT) : IT :=
  let newCount := (oldv &&& cntMask) + cntBit
  if newCount = 0#64 then cntBit else newCount

/-- `next` looks at the announcements: overflow, or panic bit set. -/
def consults (oldv : IT) : Bool :=
  decide ((oldv &&& topBit) ≠ (incTag oldv &&& topBit)) || decide ((oldv &&& panicBit) ≠ 0#64)

/-- The first scan of the announcements finds one of the same object, in the same half of the key range, that is
not behind the new count. -/
def mustPanic (newCount addr : IT) (scan : List IT) : Bool :=
  scan.any fun ann =>
    decide ((ann &&& dataMask) = (addr &&& dataMask)) && decide ((ann &&& topBit) = (newCount &&& topBit)) &&
      decide ((newCount &&& cntMask &&& ~~~panicBit) ≤ (ann &&& cntMask))

/-- The loop of `next` over the second scan, until the count is not announced. It may run for ever when all
counts are announced, so it is given `fuel` rounds. -/
def unannounced (announcedTags : List IT) (addr : IT) : Nat → IT → Option IT
  | 0, _ => none
  | fuel + 1, newCount =>
      if announcedTags.any fun ann =>
          decide ((ann &&& dataMask) = (addr &&& dataMask)) && decide ((ann &&& cntMask) = newCount) then
        unannounced announcedTags addr fuel (incTag newCount)
      else some newCount

/-- `next`, where `newv` is `(IT) newv` and the announcements are scanned up to two times. -/
def next (fuel : Nat) (oldv newv addr : IT) (scan rescan : List IT) : Option IT :=
  let newCount := incTag oldv
  if consults oldv && mustPanic newCount addr scan then
    (unannounced rescan addr fuel newCount).map fun count => newv ||| (count ||| panicBit)
  else some (newv ||| (newCount &&& ~~~panicBit))

/-- The tag of a word, as a number. -/
def tag (x : IT) : Nat := high 48 x

/-- The data of a word, as a number. -/
def data (x : IT) : Nat := low 48 x

/-- The tag after a tag. -/
def succTag (t : Nat) : Nat := if (t + 2) % 2 ^ 16 = 0 then 2 else (t + 2) % 2 ^ 16

theorem tag_lt (x : IT) : tag x < 2 ^ 16 := high_lt (by omega) x

/-- Words with the same tag and the same data are the same. -/
theorem eq_of_tag {x y : IT} (htag : tag x = tag y) (hdata : data x = data y) : x = y :=
  Packed.ext 48 htag hdata

/-- `& cnt_mask` keeps the tag. -/
@[simp] theorem tag_cntMask (x : IT) : tag (x &&& cntMask) = tag x :=
  high_and_full (by omega) (by decide)

/-- `& cnt_mask` clears the data. -/
@[simp] theorem data_cntMask (x : IT) : data (x &&& cntMask) = 0 := by
  rw [data, low_and, show low 48 cntMask = 0 by decide, Nat.and_zero]

/-- A word without data, compared with a word masked to its tag. -/
theorem cntMask_eq_iff_of_data {x y : IT} (hy : data y = 0) : (x &&& cntMask) = y ↔ tag x = tag y := by
  constructor
  · intro h
    rw [← h, tag_cntMask]
  · intro h
    exact eq_of_tag (by simpa using h) (by rw [data_cntMask, hy])

/-- The sum that `inc_tag` computes. -/
theorem tag_add_cntBit (x : IT) :
    tag ((x &&& cntMask) + cntBit) = (tag x + 2) % 2 ^ 16 ∧ data ((x &&& cntMask) + cntBit) = 0 := by
  obtain ⟨hhigh, hlow⟩ := fields_add (w := 64) (p := 48) (x := x &&& cntMask) (y := cntBit) (by omega) (by decide)
  constructor
  · show high 48 _ = _
    rw [hhigh, show high 48 cntBit = 2 by decide]
    show (tag (x &&& cntMask) + 2) % 2 ^ 16 = _
    rw [tag_cntMask]
  · show low 48 _ = 0
    rw [hlow]
    exact data_cntMask x

/-- `inc_tag` takes the tag to the next one. -/
theorem tag_incTag (x : IT) : tag (incTag x) = succTag (tag x) ∧ data (incTag x) = 0 := by
  obtain ⟨htag, hdata⟩ := tag_add_cntBit x
  have hzero : (x &&& cntMask) + cntBit = 0#64 ↔ (tag x + 2) % 2 ^ 16 = 0 := by
    rw [← htag]
    constructor
    · intro h
      rw [h]
      decide
    · intro h
      exact eq_of_tag (by rw [h]; decide) (by rw [hdata]; decide)
  rw [incTag, succTag]
  by_cases hwrap : (tag x + 2) % 2 ^ 16 = 0
  · rw [if_pos (hzero.mpr hwrap), if_pos hwrap]
    exact ⟨by decide, by decide⟩
  · rw [if_neg (fun h => hwrap (hzero.mp h)), if_neg hwrap]
    exact ⟨htag, hdata⟩

/-- The panic bit added. -/
theorem tag_or_panicBit (x : IT) : tag (x ||| panicBit) = tag x / 2 * 2 + 1 := by
  have htag : tag (x ||| panicBit) = tag x ||| 1 := by
    show high 48 _ = _
    rw [high_or, show high 48 panicBit = 1 by decide]
    rfl
  have hdiv := Nat.or_div_two_pow (a := tag x) (b := 1) (n := 1)
  have hmod := Nat.or_mod_two_pow (a := tag x) (b := 1) (n := 1)
  have hbit : tag x % 2 ^ 1 ||| 1 % 2 ^ 1 = 1 := by
    cases Nat.mod_two_eq_zero_or_one (tag x) with
    | inl h => rw [Nat.pow_one, h]; decide
    | inr h => rw [Nat.pow_one, h]; decide
  rw [hbit] at hmod
  simp only [Nat.pow_one, Nat.reduceDiv, Nat.or_zero] at hdiv hmod
  omega

/-- The panic bit masked. -/
theorem tag_and_panicBit (x : IT) : tag (x &&& ~~~panicBit) = tag x / 2 * 2 := by
  have htag : tag (x &&& ~~~panicBit) = tag x &&& (2 ^ 16 - 2) := by
    show high 48 _ = _
    rw [high_and, show high 48 (~~~panicBit) = 2 ^ 16 - 2 by decide]
    rfl
  have hdiv := Nat.and_div_two_pow (a := tag x) (b := 2 ^ 16 - 2) (n := 1)
  have hmod := Nat.and_mod_two_pow (a := tag x) (b := 2 ^ 16 - 2) (n := 1)
  have hlt := tag_lt x
  rw [show (2 ^ 16 - 2) / 2 ^ 1 = 2 ^ 15 - 1 by decide, Nat.and_two_pow_sub_one_eq_mod,
    Nat.mod_eq_of_lt (by omega)] at hdiv
  rw [show (2 ^ 16 - 2) % 2 ^ 1 = 0 by decide, Nat.and_zero] at hmod
  omega

/-- An announcement of this location carries this tag. -/
def Announced (anns : List IT) (addr : IT) (t : Nat) : Prop :=
  ∃ ann ∈ anns, (ann &&& dataMask) = (addr &&& dataMask) ∧ tag ann = t

/-- The test of the loop. -/
theorem announced_iff {anns : List IT} {addr count : IT} (hcount : data count = 0) :
    (anns.any fun ann =>
      decide ((ann &&& dataMask) = (addr &&& dataMask)) && decide ((ann &&& cntMask) = count)) = true ↔
      Announced anns addr (tag count) := by
  simp only [List.any_eq_true, Bool.and_eq_true, decide_eq_true_eq, cntMask_eq_iff_of_data hcount, Announced]

/-- The loop returns the first count that is not announced. -/
theorem unannounced_spec {anns : List IT} {addr : IT} {fuel : Nat} {count c : IT} (hcount : data count = 0)
    (h : unannounced anns addr fuel count = some c) :
    ∃ k, tag c = succTag^[k] (tag count) ∧ (∀ j < k, Announced anns addr (succTag^[j] (tag count))) ∧
      ¬ Announced anns addr (tag c) := by
  induction fuel generalizing count with
  | zero => cases h
  | succ fuel ih =>
      rw [unannounced] at h
      split at h
      next hann =>
          obtain ⟨htag, hdata⟩ := tag_incTag count
          obtain ⟨k, hk, hall, hnone⟩ := ih hdata h
          refine ⟨k + 1, ?_, ?_, hnone⟩
          · rw [hk, htag]
            rfl
          · intro j hj
            cases j with
            | zero => exact (announced_iff hcount).mp hann
            | succ j =>
                have hj := hall j (by omega)
                rw [htag] at hj
                exact hj
      next hann =>
          cases h
          exact ⟨0, rfl, fun j hj => absurd hj (Nat.not_lt_zero j),
            fun hnone => hann ((announced_iff hcount).mpr hnone)⟩

/-- The tag of a word put together from data and a tag. -/
theorem tag_data_or {newv count : IT} (hnewv : newv.toNat < 2 ^ 48) : tag (newv ||| count) = tag count := by
  show high 48 _ = _
  rw [high_or, high_eq_zero_iff.mpr hnewv, Nat.zero_or]
  rfl

/-- What `next` can return: without panic the next count, and with it a later one with the panic bit. -/
theorem next_cases {fuel : Nat} {oldv newv addr w : IT} {scan rescan : List IT} (hnewv : newv.toNat < 2 ^ 48)
    (h : next fuel oldv newv addr scan rescan = some w) :
    ((consults oldv && mustPanic (incTag oldv) addr scan) = false ∧ tag w = succTag (tag oldv) / 2 * 2) ∨
      (consults oldv && mustPanic (incTag oldv) addr scan) = true ∧
        ∃ k, tag w = succTag^[k + 1] (tag oldv) / 2 * 2 + 1 ∧
          (∀ j < k, Announced rescan addr (succTag^[j + 1] (tag oldv))) ∧
            ¬ Announced rescan addr (succTag^[k + 1] (tag oldv)) := by
  obtain ⟨htag, hdata⟩ := tag_incTag oldv
  rw [next] at h
  split at h
  next hpanic =>
      obtain ⟨c, hc, rfl⟩ := Option.map_eq_some_iff.mp h
      obtain ⟨k, hk, hall, hnone⟩ := unannounced_spec hdata hc
      rw [htag] at hk hall
      refine .inr ⟨hpanic, k, ?_, hall, ?_⟩
      · rw [tag_data_or hnewv, tag_or_panicBit, hk]
        rfl
      · rw [hk] at hnone
        exact hnone
  next hpanic =>
      cases h
      refine .inl ⟨by simpa using hpanic, ?_⟩
      rw [tag_data_or hnewv, tag_and_panicBit, htag]

end Verlib.Flock.Tagged
