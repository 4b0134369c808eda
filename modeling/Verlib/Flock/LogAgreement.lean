import Verlib.Flock.LogArray
import Mathlib.Data.List.Infix

/-!
# Agreement on the log

The arrays of a log form a chain, so the entries have numbers. What the committed values say about the
code at each entry (`codeAt`) is the same for all processes: whether it is a commit or the start of a
block, and which blocks are around it. A block ends where the code at an entry has left it, so all
processes that run a block end it at the same entry, and the cursor that one of them stores is the one
that the others reach.
-/

namespace Verlib.Flock.LogArray

open Interleaving

/-! ## The code at an entry -/

/-- The code that is left at an entry, with the blocks around it: the entry before a block and what
follows it. -/
abbrev Config :=
  Code × List (Nat × Code)

/-- Leave the blocks that have ended. -/
def settle : Code → List (Nat × Code) → Config
  | .done, (_, k) :: s => settle k s
  | .done, [] => (.done, [])
  | .commit k, s => (.commit k, s)
  | .skip body k, s => (.skip body k, s)

/-- The code at each entry, as far as the committed values determine it. -/
def codeAt (log : Nat → Nat) (code : Code) : Nat → Option Config
  | 0 => some (settle code [])
  | n + 1 =>
      match codeAt log code n with
      | some (.commit k, s) => if log n = 0 then none else some (settle (k (log n)) s)
      | some (.skip body k, s) => some (settle body ((n, k) :: s))
      | _ => none

/-- The remaining blocks are the outer ones. -/
theorem settle_suffix (c : Code) (s : List (Nat × Code)) : (settle c s).2 <:+ s := by
  induction s generalizing c with
  | nil => cases c <;> exact List.suffix_rfl
  | cons f s ih =>
      cases c with
      | done => exact (ih f.2).trans (List.suffix_cons f s)
      | commit k => exact List.suffix_rfl
      | skip body k => exact List.suffix_rfl

/-- Values that have been committed determine the code at an entry, whatever the other entries are. -/
theorem codeAt_congr {log log' : Nat → Nat} {code : Code}
    (hlog : ∀ n k s, codeAt log code n = some (.commit k, s) → log n ≠ 0 → log' n = log n)
    {n : Nat} {x : Config} (hx : codeAt log code n = some x) : codeAt log' code n = some x := by
  induction n generalizing x with
  | zero => exact hx
  | succ n ih =>
      simp only [codeAt] at hx ⊢
      split at hx
      · rename_i k s heq
        split at hx
        · cases hx
        · rename_i hne
          rw [ih heq]
          dsimp only
          rw [hlog n k s heq hne, if_neg hne]
          exact hx
      · rename_i body k s heq
        rw [ih heq]
        exact hx
      · cases hx

/-- The entries before the blocks around an entry come in order. -/
theorem codeAt_blocks {log : Nat → Nat} {code : Code} {n : Nat} {x : Config}
    (hx : codeAt log code n = some x) :
    x.2.Pairwise (fun f g => g.1 < f.1) ∧ ∀ f ∈ x.2, f.1 < n := by
  induction n generalizing x with
  | zero =>
      cases hx
      have hnil := List.suffix_nil.mp (settle_suffix code [])
      rw [hnil]
      simp
  | succ n ih =>
      simp only [codeAt] at hx
      split at hx
      · rename_i k s heq
        split at hx
        · cases hx
        · cases hx
          have hsuf := settle_suffix (k (log n)) s
          obtain ⟨hpair, hlt⟩ := ih heq
          exact ⟨hpair.sublist hsuf.sublist, fun f hf => (hlt f (hsuf.subset hf)).trans (Nat.lt_succ_self n)⟩
      · rename_i body k s heq
        cases hx
        have hsuf := settle_suffix body ((n, k) :: s)
        obtain ⟨hpair, hlt⟩ := ih heq
        have hpair' : ((n, k) :: s).Pairwise (fun f g => g.1 < f.1) := by
          rw [List.pairwise_cons]
          exact ⟨hlt, hpair⟩
        refine ⟨hpair'.sublist hsuf.sublist, fun f hf => ?_⟩
        rcases List.mem_cons.mp (hsuf.subset hf) with rfl | hmem
        · exact Nat.lt_succ_self n
        · exact (hlt f hmem).trans (Nat.lt_succ_self n)
      · cases hx

/-- Every entry between `i` and `n` lies in the block after entry `i`, which is followed by `k` and
surrounded by the blocks `s`. -/
def Within (K : Nat → Option Config) (i n : Nat) (k : Code) (s : List (Nat × Code)) : Prop :=
  ∀ j, i < j → j < n → ∃ c inner, K j = some (c, inner ++ (i, k) :: s)

/-- A block ends at one entry only. -/
theorem Within.end_unique {log : Nat → Nat} {code body k : Code} {i n e : Nat}
    {s : List (Nat × Code)} (hi : codeAt log code i = some (.skip body k, s))
    (hn : Within (codeAt log code) i n k s) (he : Within (codeAt log code) i e k s)
    (hin : i < n) (hie : i < e)
    (hend : codeAt log code n = some (settle k s)) (hend' : codeAt log code e = some (settle k s)) :
    n = e := by
  -- Where a block has ended it is not around the code any more.
  have hout : ∀ {c inner}, settle k s ≠ (c, inner ++ (i, k) :: s) := by
    intro c inner heq
    have hsuf := settle_suffix k s
    rw [heq] at hsuf
    have hmem : (i, k) ∈ s := hsuf.subset (by simp)
    exact Nat.lt_irrefl _ ((codeAt_blocks hi).2 _ hmem)
  rcases Nat.lt_trichotomy n e with hlt | heq | hlt
  · obtain ⟨c, inner, hc⟩ := he n hin hlt
    exact absurd (Option.some.inj (hend.symm.trans hc)) hout
  · exact heq
  · obtain ⟨c, inner, hc⟩ := hn e hie hlt
    exact absurd (Option.some.inj (hend'.symm.trans hc)) hout

/-- The entries of an inner block lie in the outer blocks. -/
theorem Within.inner {K : Nat → Option Config} {i i' n : Nat} {k k' : Code}
    {s inner : List (Nat × Code)} (hw : Within K i' n k' (inner ++ (i, k) :: s)) :
    ∀ j, i' < j → j < n → ∃ c inner', K j = some (c, inner' ++ (i, k) :: s) := by
  intro j hlt hn
  obtain ⟨c, more, hc⟩ := hw j hlt hn
  exact ⟨c, more ++ (i', k') :: inner, by rw [hc]; simp⟩

/-! ## The chain of arrays -/

/-- The arrays that have been linked. -/
structure Chain where
  len : Nat
  arr : Nat → Nat

/-- The place of an entry. -/
def Chain.entry (c : Chain) (i : Nat) : Nat × Nat :=
  (c.arr (i / logLen), i % logLen)

/-- The cursor after `n` entries. -/
def Chain.cursor (c : Chain) : Nat → Nat × Nat
  | 0 => (c.arr 0, 0)
  | n + 1 => (c.arr (n / logLen), n % logLen + 1)

/-- An entry of the first `n` arrays. -/
theorem succ_le_of_div_lt {i n : Nat} (hi : i / logLen < n) : i + 1 ≤ logLen * n := by
  unfold logLen at *
  omega

/-- The contents of the log by the numbers of the entries. -/
def Chain.log (c : Chain) (m : Memory) (i : Nat) : Nat :=
  if i / logLen < c.len then m.entries (c.entry i).1 (c.entry i).2 else 0

/-- The chain is linked by `next`. -/
structure ChainInv (head : Nat) (c : Chain) (m : Memory) : Prop where
  pos : 0 < c.len
  head : c.arr 0 = head
  inj : ∀ i j, i < c.len → j < c.len → c.arr i = c.arr j → i = j
  next : ∀ i, i + 1 < c.len → m.next (c.arr i) = c.arr (i + 1)
  last : m.next (c.arr (c.len - 1)) = 0
  allocated : ∀ i, i < c.len → m.allocated (c.arr i) = true
  address : ∀ i, i < c.len → 0 < c.arr i ∧ c.arr i < 2 ^ 48

/-- An array that a process has allocated and not linked. -/
structure Private (c : Chain) (m : Memory) (a : Nat) : Prop where
  allocated : m.allocated a = true
  next : m.next a = 0
  entries : ∀ j, m.entries a j = 0
  address : 0 < a ∧ a < 2 ^ 48
  outside : ∀ i, i < c.len → c.arr i ≠ a

/-- The stored cursor can be read back. -/
theorem encode_count {count vals : Nat} (hvals : vals < 2 ^ 48) : encode count vals >>> 48 = count := by
  unfold encode
  rw [← Nat.shiftLeft_add_eq_or_of_lt hvals, Nat.shiftLeft_eq, Nat.shiftRight_eq_div_pow]
  omega

/-- The stored array can be read back. -/
theorem encode_vals {count vals : Nat} (hvals : vals < 2 ^ 48) : encode count vals % 2 ^ 48 = vals := by
  unfold encode
  rw [← Nat.shiftLeft_add_eq_or_of_lt hvals, Nat.shiftLeft_eq]
  omega

/-- A stored cursor is not null. -/
theorem encode_ne_zero {count vals : Nat} (hvals : vals < 2 ^ 48) (hpos : 0 < vals) :
    encode count vals ≠ 0 := by
  unfold encode
  rw [← Nat.shiftLeft_add_eq_or_of_lt hvals]
  omega

section Chain

variable {head : Nat} {c : Chain} {m : Memory}

/-- Different entries have different places. -/
theorem ChainInv.entry_inj (hc : ChainInv head c m) {i j : Nat} (hi : i / logLen < c.len)
    (hj : j / logLen < c.len) (heq : c.entry i = c.entry j) : i = j := by
  simp only [Chain.entry, Prod.mk.injEq] at heq
  have hdiv := hc.inj _ _ hi hj heq.1
  rw [← Nat.div_add_mod i logLen, ← Nat.div_add_mod j logLen, hdiv, heq.2]

/-- An entry is written. -/
theorem ChainInv.log_setEntry (hc : ChainInv head c m) {i : Nat} (hi : i / logLen < c.len) (v : Nat) :
    c.log (m.setEntry (c.entry i) v) = Function.update (c.log m) i v := by
  funext j
  by_cases hj : j / logLen < c.len
  · rcases eq_or_ne j i with rfl | hne
    · simp [Chain.log, hj, Memory.setEntry]
    · rw [Function.update_of_ne hne]
      simp only [Chain.log, hj, if_true, Memory.setEntry]
      rcases eq_or_ne (c.entry j).1 (c.entry i).1 with harr | harr
      · have hidx : (c.entry j).2 ≠ (c.entry i).2 := fun hidx =>
          hne (hc.entry_inj hj hi (Prod.ext harr hidx))
        rw [harr, Function.update_self, Function.update_of_ne hidx]
      · rw [Function.update_of_ne harr]
  · have hne : j ≠ i := fun heq => hj (heq ▸ hi)
    rw [Function.update_of_ne hne]
    simp [Chain.log, hj]

/-- Entries are written without touching the chain. -/
theorem ChainInv.setEntry (hc : ChainInv head c m) (l : Nat × Nat) (v : Nat) :
    ChainInv head c (m.setEntry l v) :=
  ⟨hc.pos, hc.head, hc.inj, hc.next, hc.last, hc.allocated, hc.address⟩

/-- An array that is not allocated is not in the chain. -/
theorem ChainInv.outside (hc : ChainInv head c m) {a : Nat} (ha : m.allocated a = false) :
    ∀ i, i < c.len → c.arr i ≠ a := by
  rintro i hi rfl
  rw [hc.allocated i hi] at ha
  cases ha

/-- An array is allocated. -/
theorem ChainInv.newArray (hc : ChainInv head c m) {a : Nat} (ha : m.allocated a = false) :
    ChainInv head c (m.newArray a) ∧ c.log (m.newArray a) = c.log m := by
  have hout := hc.outside ha
  have hlast : c.len - 1 < c.len := Nat.sub_lt hc.pos Nat.one_pos
  refine ⟨⟨hc.pos, hc.head, hc.inj, ?_, ?_, ?_, hc.address⟩, ?_⟩
  · intro i hi
    show Function.update m.next a 0 (c.arr i) = _
    rw [Function.update_of_ne (hout i (Nat.lt_of_succ_lt hi))]
    exact hc.next i hi
  · show Function.update m.next a 0 (c.arr (c.len - 1)) = 0
    rw [Function.update_of_ne (hout _ hlast)]
    exact hc.last
  · intro i hi
    show Function.update m.allocated a true (c.arr i) = true
    rw [Function.update_of_ne (hout i hi)]
    exact hc.allocated i hi
  · funext i
    by_cases hi : i / logLen < c.len
    · simp only [Chain.log, hi, if_true, Memory.newArray, Chain.entry]
      rw [Function.update_of_ne (hout _ hi)]
    · simp [Chain.log, hi]

/-- The array of a process that has lost the race is destructed. -/
theorem ChainInv.destruct (hc : ChainInv head c m) {a : Nat} (hout : ∀ i, i < c.len → c.arr i ≠ a) :
    ChainInv head c (m.destruct a) ∧ c.log (m.destruct a) = c.log m := by
  refine ⟨⟨hc.pos, hc.head, hc.inj, hc.next, hc.last, ?_, hc.address⟩, rfl⟩
  intro i hi
  show Function.update m.allocated a false (c.arr i) = true
  rw [Function.update_of_ne (hout i hi)]
  exact hc.allocated i hi

/-- The chain with one more array. -/
def Chain.extend (c : Chain) (a : Nat) : Chain :=
  ⟨c.len + 1, Function.update c.arr c.len a⟩

/-- The arrays of the chain stay. -/
theorem extend_arr {i : Nat} (hi : i < c.len) (a : Nat) : (c.extend a).arr i = c.arr i :=
  Function.update_of_ne hi.ne _ _

/-- The new array is the last one. -/
theorem extend_last (c : Chain) (a : Nat) : (c.extend a).arr c.len = a :=
  Function.update_self ..

/-- An array is linked. -/
theorem ChainInv.link (hc : ChainInv head c m) {a : Nat} (ha : Private c m a) :
    ChainInv head (c.extend a) (m.setNext (c.arr (c.len - 1)) a) ∧
      (c.extend a).log (m.setNext (c.arr (c.len - 1)) a) = c.log m := by
  have hlast : c.len - 1 < c.len := Nat.sub_lt hc.pos Nat.one_pos
  have hcases : ∀ {i}, i < (c.extend a).len → i < c.len ∧ (c.extend a).arr i = c.arr i ∨
      i = c.len ∧ (c.extend a).arr i = a := by
    intro i hi
    rcases Nat.lt_or_eq_of_le (Nat.le_of_lt_succ hi) with hlt | rfl
    · exact .inl ⟨hlt, extend_arr hlt a⟩
    · exact .inr ⟨rfl, extend_last c a⟩
  refine ⟨⟨Nat.succ_pos _, ?_, ?_, ?_, ?_, ?_, ?_⟩, ?_⟩
  · rw [extend_arr hc.pos]
    exact hc.head
  · intro i j hi hj heq
    rcases hcases hi with ⟨hi, hai⟩ | ⟨rfl, hai⟩
    · rcases hcases hj with ⟨hj, haj⟩ | ⟨rfl, haj⟩
      · rw [hai, haj] at heq
        exact hc.inj i j hi hj heq
      · rw [hai, haj] at heq
        exact absurd heq (ha.outside i hi)
    · rcases hcases hj with ⟨hj, haj⟩ | ⟨rfl, _⟩
      · rw [hai, haj] at heq
        exact absurd heq.symm (ha.outside j hj)
      · rfl
  · intro i hi
    have hi' : i < c.len := Nat.lt_of_succ_lt_succ hi
    show Function.update m.next (c.arr (c.len - 1)) a ((c.extend a).arr i) = _
    rw [extend_arr hi']
    rcases Nat.lt_or_eq_of_le (Nat.succ_le_of_lt hi') with hlt | heq
    · rw [extend_arr hlt, Function.update_of_ne]
      · exact hc.next i hlt
      · intro habs
        have heq := hc.inj i _ hi' hlast habs
        omega
    · have hlen : i + 1 = c.len := heq
      have hi'' : i = c.len - 1 := by omega
      rw [hlen, extend_last, hi'', Function.update_self]
  · show Function.update m.next (c.arr (c.len - 1)) a ((c.extend a).arr (c.len + 1 - 1)) = 0
    rw [Nat.add_sub_cancel, extend_last, Function.update_of_ne (Ne.symm (ha.outside _ hlast))]
    exact ha.next
  · intro i hi
    rcases hcases hi with ⟨hi, hai⟩ | ⟨_, hai⟩
    · rw [hai]
      exact hc.allocated i hi
    · rw [hai]
      exact ha.allocated
  · intro i hi
    rcases hcases hi with ⟨hi, hai⟩ | ⟨_, hai⟩
    · rw [hai]
      exact hc.address i hi
    · rw [hai]
      exact ha.address
  · funext i
    by_cases hi : i / logLen < (c.extend a).len
    · simp only [Chain.log, hi, if_true, Memory.setNext, Chain.entry]
      rcases hcases hi with ⟨hi', hai⟩ | ⟨hi', hai⟩
      · rw [hai, if_pos hi']
      · rw [hai, ha.entries, if_neg (by omega)]
    · have hi' : ¬ i / logLen < c.len := fun hlt => hi (hlt.trans (Nat.lt_succ_self _))
      simp [Chain.log, hi, hi']

end Chain

/-! ## What a process knows -/

/-- The entries and continuations of the blocks that a process runs. -/
def frames (bs : List Block) : List (Nat × Code) :=
  bs.map fun b => (b.start, b.rest)

/-- The blocks around entry `n` in a process. -/
def BlocksOk (c : Chain) (K : Nat → Option Config) (n : Nat) : List Block → Prop
  | [] => True
  | b :: bs => (b.entry = c.entry b.start ∧ b.start < n ∧
      (∃ body, K b.start = some (.skip body b.rest, frames bs)) ∧
      Within K b.start n b.rest (frames bs)) ∧ BlocksOk c K n bs

/-- The operation is the one that the code is at. -/
def Op.Fits : Op → Code → Prop
  | .commit newv, .commit _ => newv ≠ 0
  | .skip, .skip _ _ => True
  | _, _ => False

/-- A process that has taken an entry. -/
def Taken (c : Chain) (K : Nat → Option Config) (p : Process) (o : Op) (l : Nat × Nat) : Prop :=
  o.Fits p.code ∧ ∃ i, p.pos = i + 1 ∧ i / logLen < c.len ∧ l = c.entry i ∧
    (p.vals, p.count) = c.cursor (i + 1) ∧ K i = some (p.code, frames p.blocks) ∧
    BlocksOk c K i p.blocks

/-- A process at the end of an array, which is array `j` of the chain. -/
def AtEnd (c : Chain) (K : Nat → Option Config) (p : Process) (o : Op) : Prop :=
  o.Fits p.code ∧ p.count = 0 ∧ K p.pos = some (p.code, frames p.blocks) ∧
    BlocksOk c K p.pos p.blocks ∧ ∃ j, j < c.len ∧ p.pos = logLen * (j + 1) ∧ p.vals = c.arr j

/-- What a process knows at its position. -/
def ProcOk (c : Chain) (K : Nat → Option Config) (p : Process) : Prop :=
  match p.pc with
  | .ready => (p.vals, p.count) = c.cursor p.pos ∧ p.pos ≤ logLen * c.len ∧
      K p.pos = some (settle p.code (frames p.blocks)) ∧ BlocksOk c K p.pos p.blocks
  | .loadNext o | .link o _ => AtEnd c K p o
  | .load o l => Taken c K p o l
  | .swap newv l => Taken c K p (.commit newv) l

/-- The block after entry `i` has been run to its end `e`, and the entry holds the cursor there. -/
structure EndsAt (c : Chain) (m : Memory) (K : Nat → Option Config) (i e : Nat) (k : Code)
    (s : List (Nat × Code)) : Prop where
  lt : i < e
  le : e ≤ logLen * c.len
  stored : c.log m i = encode (c.cursor e).2 (c.cursor e).1
  code : K e = some (settle k s)
  within : Within K i e k s

/-- The invariant of the log: an entry that has been written is one that the code has come to, and blocks
that have been run end where `ends` says. -/
structure LogInv (head : Nat) (code : Code) (c : Chain) (m : Memory) (ends : Nat → Nat) : Prop where
  chain : ChainInv head c m
  known : ∀ i, c.log m i ≠ 0 → ∃ x, codeAt (c.log m) code i = some x
  ends : ∀ i body k s, codeAt (c.log m) code i = some (.skip body k, s) → c.log m i ≠ 0 →
    EndsAt c m (codeAt (c.log m) code) i (ends i) k s

/-- How a step may change the log: arrays are added, and entries and the ends of blocks are written
once. -/
structure Ext (c : Chain) (m : Memory) (ends : Nat → Nat) (c' : Chain) (m' : Memory)
    (ends' : Nat → Nat) : Prop where
  len : c.len ≤ c'.len
  arr : ∀ i, i < c.len → c'.arr i = c.arr i
  log : ∀ i, c.log m i ≠ 0 → c'.log m' i = c.log m i
  ends : ∀ i, c.log m i ≠ 0 → ends' i = ends i

section Transport

variable {head : Nat} {code : Code} {c c' : Chain} {m m' : Memory} {ends ends' : Nat → Nat}
  (hext : Ext c m ends c' m' ends')
include hext

/-- The code at an entry stays the same. -/
theorem Ext.codeAt {n : Nat} {x : Config} (hx : codeAt (c.log m) code n = some x) :
    codeAt (c'.log m') code n = some x :=
  codeAt_congr (fun n _ _ _ hne => hext.log n hne) hx

/-- Entries stay in their places. -/
theorem Ext.entry {i : Nat} (hi : i / logLen < c.len) : c'.entry i = c.entry i := by
  simp [Chain.entry, hext.arr _ hi]

/-- Cursors stay the same. -/
theorem Ext.cursor {n : Nat} (hpos : 0 < c.len) (hn : n ≤ logLen * c.len) :
    c'.cursor n = c.cursor n := by
  cases n with
  | zero => simp [Chain.cursor, hext.arr 0 hpos]
  | succ n =>
      have hlt : n / logLen < c.len := Nat.div_lt_of_lt_mul hn
      simp [Chain.cursor, hext.arr _ hlt]

/-- The entries of a block stay in it. -/
theorem Ext.within {i n : Nat} {k : Code} {s : List (Nat × Code)}
    (hw : Within (LogArray.codeAt (c.log m) code) i n k s) :
    Within (LogArray.codeAt (c'.log m') code) i n k s := by
  intro j hlt hn
  obtain ⟨d, inner, hd⟩ := hw j hlt hn
  exact ⟨d, inner, hext.codeAt hd⟩

/-- The blocks around an entry stay the same. -/
theorem Ext.blocksOk {n : Nat} {bs : List Block} (hn : n ≤ logLen * c.len)
    (hbs : BlocksOk c (LogArray.codeAt (c.log m) code) n bs) :
    BlocksOk c' (LogArray.codeAt (c'.log m') code) n bs := by
  induction bs with
  | nil => trivial
  | cons b bs ih =>
      obtain ⟨⟨hentry, hlt, ⟨body, hbody⟩, hw⟩, hrest⟩ := hbs
      have hstart : b.start / logLen < c.len := Nat.div_lt_of_lt_mul (hlt.trans_le hn)
      exact ⟨⟨by rw [hentry, hext.entry hstart], hlt, ⟨body, hext.codeAt hbody⟩, hext.within hw⟩,
        ih hrest⟩

/-- What a process knows stays known. -/
theorem Ext.procOk {p : Process} (hpos : 0 < c.len)
    (hp : ProcOk c (LogArray.codeAt (c.log m) code) p) :
    ProcOk c' (LogArray.codeAt (c'.log m') code) p := by
  have htaken : ∀ {o l}, Taken c (LogArray.codeAt (c.log m) code) p o l →
      Taken c' (LogArray.codeAt (c'.log m') code) p o l := by
    rintro o l ⟨hfits, i, hi, hlt, hl, hcur, hK, hbs⟩
    have hle := succ_le_of_div_lt hlt
    refine ⟨hfits, i, hi, hlt.trans_le hext.len, by rw [hl, hext.entry hlt], ?_, hext.codeAt hK,
      hext.blocksOk (Nat.le_of_succ_le hle) hbs⟩
    rw [hext.cursor hpos hle]
    exact hcur
  have hend : ∀ {o}, AtEnd c (LogArray.codeAt (c.log m) code) p o →
      AtEnd c' (LogArray.codeAt (c'.log m') code) p o := by
    rintro o ⟨hfits, hcount, hK, hbs, j, hj, hpj, hvals⟩
    have hle : p.pos ≤ logLen * c.len := by
      rw [hpj]
      exact Nat.mul_le_mul_left _ hj
    exact ⟨hfits, hcount, hext.codeAt hK, hext.blocksOk hle hbs, j, hj.trans_le hext.len, hpj,
      by rw [hvals, hext.arr j hj]⟩
  unfold ProcOk at hp ⊢
  split at hp
  · obtain ⟨hcur, hle, hK, hbs⟩ := hp
    exact ⟨by rw [hext.cursor hpos hle, hcur], hle.trans (Nat.mul_le_mul_left _ hext.len),
      hext.codeAt hK, hext.blocksOk hle hbs⟩
  · exact hend hp
  · exact hend hp
  · exact htaken hp
  · exact htaken hp

/-- A private array stays private. -/
theorem Ext.private {a : Nat} (hp : Private c m a) (halloc : m'.allocated a = m.allocated a)
    (hnext : m'.next a = m.next a) (hentries : m'.entries a = m.entries a)
    (hnew : ∀ i, c.len ≤ i → i < c'.len → c'.arr i ≠ a) : Private c' m' a := by
  refine ⟨by rw [halloc, hp.allocated], by rw [hnext, hp.next], ?_, hp.address, ?_⟩
  · rw [hentries]
    exact hp.entries
  · intro i hi
    rcases Nat.lt_or_ge i c.len with hlt | hge
    · rw [hext.arr i hlt]
      exact hp.outside i hlt
    · exact hnew i hge hi

/-- A step keeps the invariant of the log, if it does so at the entry that it writes. -/
theorem LogInv.ext (hinv : LogInv head code c m ends) (hchain : ChainInv head c' m')
    (hnew : ∀ i, c.log m i = 0 → c'.log m' i ≠ 0 → (∃ x, LogArray.codeAt (c'.log m') code i = some x) ∧
      ∀ body k s, LogArray.codeAt (c'.log m') code i = some (.skip body k, s) →
        EndsAt c' m' (LogArray.codeAt (c'.log m') code) i (ends' i) k s) :
    LogInv head code c' m' ends' := by
  refine ⟨hchain, fun i hi => ?_, fun i body k s hK hi => ?_⟩
  · by_cases hold : c.log m i = 0
    · exact (hnew i hold hi).1
    · obtain ⟨x, hx⟩ := hinv.known i hold
      exact ⟨x, hext.codeAt hx⟩
  · by_cases hold : c.log m i = 0
    · exact (hnew i hold hi).2 body k s hK
    · obtain ⟨x, hx⟩ := hinv.known i hold
      have heq := (hext.codeAt hx).symm.trans hK
      rw [heq] at hx
      obtain ⟨hlt, hle, hstored, hcode, hw⟩ := hinv.ends i body k s hx hold
      rw [hext.ends i hold]
      refine ⟨hlt, hle.trans (Nat.mul_le_mul_left _ hext.len), ?_, hext.codeAt hcode, hext.within hw⟩
      rw [hext.log i hold, hext.cursor hinv.chain.pos hle, hstored]

end Transport

section Blocks

variable {c : Chain} {K : Nat → Option Config} {n : Nat} {bs : List Block}

/-- The process moves past entry `n`. -/
theorem BlocksOk.advance {d : Code} {inner : List (Nat × Code)} (hbs : BlocksOk c K n bs)
    (hK : K n = some (d, inner ++ frames bs)) : BlocksOk c K (n + 1) bs := by
  induction bs generalizing inner with
  | nil => trivial
  | cons b bs ih =>
      obtain ⟨⟨hentry, hlt, hbody, hw⟩, hrest⟩ := hbs
      refine ⟨⟨hentry, Nat.lt_succ_of_lt hlt, hbody, fun j hij hj => ?_⟩, ?_⟩
      · rcases Nat.lt_or_eq_of_le (Nat.le_of_lt_succ hj) with hjn | rfl
        · exact hw j hij hjn
        · exact ⟨d, inner, hK⟩
      · refine ih hrest (?_ : K n = some (d, (inner ++ [(b.start, b.rest)]) ++ frames bs))
        rw [hK]
        simp [frames]

/-- The process skips a block. -/
theorem BlocksOk.jump {e i : Nat} {d k : Code} {inner : List (Nat × Code)} (hbs : BlocksOk c K i bs)
    (hK : K i = some (d, inner ++ frames bs)) (hie : i < e) (hw : Within K i e k (inner ++ frames bs)) :
    BlocksOk c K e bs := by
  induction bs generalizing inner with
  | nil => trivial
  | cons b bs ih =>
      obtain ⟨⟨hentry, hlt, hbody, hold⟩, hrest⟩ := hbs
      refine ⟨⟨hentry, hlt.trans hie, hbody, fun j hij hj => ?_⟩, ?_⟩
      · rcases Nat.lt_trichotomy j i with hji | rfl | hji
        · exact hold j hij hji
        · exact ⟨d, inner, hK⟩
        · exact Within.inner hw j hji hj
      · refine ih hrest (?_ : K i = some (d, (inner ++ [(b.start, b.rest)]) ++ frames bs)) ?_
        · rw [hK]
          simp [frames]
        · simpa [frames] using hw

end Blocks

/-! ## The history -/

/-- The event is a `commit_value` for entry `i` that got the flag true. -/
def Event.wins {ι : Type} (i : Nat) : Event ι → Bool
  | .committed _ j _ _ flag => j = i && flag
  | .passed _ _ _ => false

/-- What the history says about the log. -/
structure HistOk {ι : Type} (code : Code) (c : Chain) (m : Memory) (ends : Nat → Nat)
    (h : List (Event ι)) : Prop where
  committed : ∀ p i v r b, .committed p i v r b ∈ h → c.log m i = r ∧ r ≠ 0 ∧ (b = true → v = r) ∧
    ∃ k s, codeAt (c.log m) code i = some (.commit k, s)
  once : ∀ i, h.countP (Event.wins i) ≤ 1
  won : ∀ i k s, codeAt (c.log m) code i = some (.commit k, s) → c.log m i ≠ 0 →
    ∃ q, .committed q i (c.log m i) (c.log m i) true ∈ h
  passed : ∀ p i e, .passed p i e ∈ h → c.log m i ≠ 0 ∧ ends i = e

section History

variable {ι : Type} {head : Nat} {code : Code} {c c' : Chain} {m m' : Memory} {ends ends' : Nat → Nat}
  {h es : List (Event ι)}

/-- No call for an entry that has not been written has returned. -/
theorem HistOk.not_won (hist : HistOk code c m ends h) {i : Nat} (hi : c.log m i = 0) :
    h.countP (Event.wins i) = 0 := by
  rw [List.countP_eq_zero]
  intro e he hwins
  cases e with
  | committed p j v r b =>
      simp only [Event.wins, Bool.and_eq_true, decide_eq_true_eq] at hwins
      obtain ⟨hr, hne, _⟩ := hist.committed p j v r b he
      rw [hwins.1, hi] at hr
      exact hne hr.symm
  | passed p j e => cases hwins

/-- A step keeps what the history says, if its events fit. -/
theorem HistOk.step (hist : HistOk code c m ends h) (hext : Ext c m ends c' m' ends')
    (hinv : LogInv head code c m ends)
    (hcommitted : ∀ p i v r b, .committed p i v r b ∈ es → c'.log m' i = r ∧ r ≠ 0 ∧
      (b = true → v = r) ∧ ∃ k s, codeAt (c'.log m') code i = some (.commit k, s))
    (honce : ∀ i, es.countP (Event.wins i) ≤ 1 ∧
      (c.log m i ≠ 0 → es.countP (Event.wins i) = 0))
    (hwon : ∀ i k s, codeAt (c'.log m') code i = some (.commit k, s) → c.log m i = 0 →
      c'.log m' i ≠ 0 → ∃ q, .committed q i (c'.log m' i) (c'.log m' i) true ∈ es)
    (hpassed : ∀ p i e, .passed p i e ∈ es → c'.log m' i ≠ 0 ∧ ends' i = e) :
    HistOk code c' m' ends' (h ++ es) := by
  refine ⟨?_, ?_, ?_, ?_⟩
  · intro p i v r b hmem
    rcases List.mem_append.mp hmem with hold | hnew
    · obtain ⟨hr, hne, hb, k, s, hK⟩ := hist.committed p i v r b hold
      exact ⟨by rw [hext.log i (by rwa [hr]), hr], hne, hb, k, s, hext.codeAt hK⟩
    · exact hcommitted p i v r b hnew
  · intro i
    rw [List.countP_append]
    by_cases hi : c.log m i = 0
    · rw [hist.not_won hi, Nat.zero_add]
      exact (honce i).1
    · rw [(honce i).2 hi, Nat.add_zero]
      exact hist.once i
  · intro i k s hK hi
    by_cases hold : c.log m i = 0
    · obtain ⟨q, hq⟩ := hwon i k s hK hold hi
      exact ⟨q, List.mem_append_right _ hq⟩
    · obtain ⟨x, hx⟩ := hinv.known i hold
      have heq := (hext.codeAt hx).symm.trans hK
      rw [heq] at hx
      obtain ⟨q, hq⟩ := hist.won i k s hx hold
      rw [hext.log i hold]
      exact ⟨q, List.mem_append_left _ hq⟩
  · intro p i e hmem
    rcases List.mem_append.mp hmem with hold | hnew
    · obtain ⟨hne, he⟩ := hist.passed p i e hold
      exact ⟨by rwa [hext.log i hne], by rw [hext.ends i hne, he]⟩
    · exact hpassed p i e hnew

end History

/-! ## The steps of a process -/

/-- The array that a process has allocated. -/
def Pc.new : Pc → Option Nat
  | .link _ a => some a
  | _ => none

/-- What a step of a process establishes. -/
structure StepOk {ι : Type} (head : Nat) (code : Code) (c : Chain) (m : Memory) (ends : Nat → Nat)
    (h : List (Event ι)) (p : Process) (es : List (Event ι)) (c' : Chain) (m' : Memory)
    (ends' : Nat → Nat) (p' : Process) : Prop where
  ext : Ext c m ends c' m' ends'
  log : LogInv head code c' m' ends'
  hist : HistOk code c' m' ends' (h ++ es)
  proc : ProcOk c' (codeAt (c'.log m') code) p'
  new : ∀ a, p'.pc.new = some a → Private c' m' a ∧ (p.pc.new = some a ∨ m.allocated a = false)
  kept : ∀ a, Private c m a → p.pc.new ≠ some a → Private c' m' a

section Steps

variable {ι : Type} {head : Nat} {code : Code} {c c' : Chain} {m m' : Memory} {ends ends' : Nat → Nat}
  {h es : List (Event ι)} {p p' : Process}

/-- Nothing changes. -/
theorem Ext.refl (c : Chain) (m : Memory) (ends : Nat → Nat) : Ext c m ends c m ends :=
  ⟨le_rfl, fun _ _ => rfl, fun _ _ => rfl, fun _ _ => rfl⟩

/-- A step that does not write to the log. -/
theorem StepOk.of_log (hinv : LogInv head code c m ends) (hist : HistOk code c m ends h)
    (hchain : ChainInv head c' m') (hlen : c.len ≤ c'.len) (harr : ∀ i, i < c.len → c'.arr i = c.arr i)
    (hlog : c'.log m' = c.log m) (hproc : ProcOk c' (codeAt (c.log m) code) p')
    (hnew : ∀ a, p'.pc.new = some a → Private c' m' a ∧ (p.pc.new = some a ∨ m.allocated a = false))
    (hkept : ∀ a, Private c m a → p.pc.new ≠ some a → Private c' m' a) :
    StepOk head code c m ends h p [] c' m' ends p' := by
  have hext : Ext c m ends c' m' ends := ⟨hlen, harr, fun i _ => by rw [hlog], fun _ _ => rfl⟩
  refine ⟨hext, hinv.ext hext hchain ?_, hist.step hext hinv (by simp) (by simp) ?_ (by simp), ?_, hnew,
    hkept⟩
  · intro i hold hi
    rw [hlog] at hi
    exact absurd hold hi
  · intro i k s _ hold hi
    rw [hlog] at hi
    exact absurd hold hi
  · rwa [hlog]

/-- A step that does not change the memory. -/
theorem StepOk.of_proc (hinv : LogInv head code c m ends) (hist' : HistOk code c m ends (h ++ es))
    (hproc : ProcOk c (codeAt (c.log m) code) p') (hnew : p'.pc.new = none) :
    StepOk head code c m ends h p es c m ends p' := by
  refine ⟨Ext.refl c m ends, hinv, hist', hproc, fun a ha => ?_, fun a ha _ => ha⟩
  rw [hnew] at ha
  cases ha

/-- An entry of an array in the chain is taken. -/
theorem takeEntry_ok {K : Nat → Option Config} {o : Op} {i : Nat} (hfits : o.Fits p.code)
    (hi : p.pos = i) (hlt : i / logLen < c.len) (hK : K i = some (p.code, frames p.blocks))
    (hbs : BlocksOk c K i p.blocks) {vals count : Nat} (hentry : (vals, count) = c.entry i) :
    ProcOk c K (p.takeEntry o vals count) := by
  show Taken c K (p.takeEntry o vals count) o (vals, count)
  refine ⟨hfits, i, by simp [Process.takeEntry, hi], hlt, hentry, ?_, hK, hbs⟩
  simp only [Process.takeEntry, Chain.cursor]
  simp only [Chain.entry, Prod.mk.injEq] at hentry
  rw [hentry.1, hentry.2]

/-- `next_entry` before its first access to shared memory. -/
theorem nextEntry_ok {K : Nat → Option Config} {o : Op} (hpos : 0 < c.len)
    (hp : ProcOk c K p) (hready : p.pc = .ready) (hfits : o.Fits p.code) :
    ProcOk c K (p.nextEntry o) ∧ (p.nextEntry o).pc.new = none := by
  unfold ProcOk at hp
  rw [hready] at hp
  obtain ⟨hcur, hle, hK, hbs⟩ := hp
  have hsettle : settle p.code (frames p.blocks) = (p.code, frames p.blocks) := by
    cases hcode : p.code with
    | done =>
        rw [hcode] at hfits
        cases o <;> exact absurd hfits id
    | commit k => cases frames p.blocks <;> rfl
    | skip body k => cases frames p.blocks <;> rfl
  rw [hsettle] at hK
  unfold Process.nextEntry
  split
  · rename_i hfull
    refine ⟨⟨hfits, rfl, hK, hbs, ?_⟩, rfl⟩
    rw [hfull] at hcur
    cases hn : p.pos with
    | zero =>
        rw [hn] at hcur
        simp only [Chain.cursor, Prod.mk.injEq] at hcur
        exact absurd hcur.2 (by decide)
    | succ n =>
        rw [hn] at hcur hle
        simp only [Chain.cursor, Prod.mk.injEq] at hcur
        refine ⟨n / logLen, Nat.div_lt_of_lt_mul hle, ?_, hcur.1⟩
        have hmod := hcur.2
        unfold logLen at *
        omega
  · rename_i hfull
    refine ⟨?_, rfl⟩
    -- The cursor is the place of the next entry unless the array is full.
    have hentry : (p.vals, p.count) = c.entry p.pos ∧ p.pos / logLen < c.len := by
      rw [hcur]
      cases hn : p.pos with
      | zero => exact ⟨rfl, hpos⟩
      | succ n =>
          rw [hn] at hcur hle
          simp only [Chain.cursor, Prod.mk.injEq] at hcur
          have hne : n % logLen + 1 ≠ logLen := by rwa [← hcur.2]
          have hdiv : (n + 1) / logLen = n / logLen := by
            unfold logLen at *
            omega
          have hmod : (n + 1) % logLen = n % logLen + 1 := by
            unfold logLen at *
            omega
          refine ⟨by simp [Chain.cursor, Chain.entry, hdiv, hmod], ?_⟩
          rw [hdiv]
          exact Nat.div_lt_of_lt_mul hle
    exact takeEntry_ok hfits rfl hentry.2 hK hbs hentry.1

/-- The first entry of the next array is taken. -/
theorem AtEnd.take {K : Nat → Option Config} {o : Op} {j : Nat} (hend : AtEnd c K p o)
    (hj : p.pos = logLen * (j + 1)) (hlt : j + 1 < c.len) :
    ProcOk c K (p.takeEntry o (c.arr (j + 1)) 0) := by
  obtain ⟨hfits, _, hK, hbs, _⟩ := hend
  have hdiv : logLen * (j + 1) / logLen = j + 1 := by
    unfold logLen
    omega
  have hmod : logLen * (j + 1) % logLen = 0 := by
    unfold logLen
    omega
  rw [hj] at hK hbs
  refine takeEntry_ok hfits hj (by rwa [hdiv]) hK hbs ?_
  simp [Chain.entry, hdiv, hmod]

/-- The next array, if there is one. -/
theorem ChainInv.next_cases (hc : ChainInv head c m) {j : Nat} (hj : j < c.len) :
    j + 1 < c.len ∧ m.next (c.arr j) = c.arr (j + 1) ∧ m.next (c.arr j) ≠ 0 ∨
      j = c.len - 1 ∧ m.next (c.arr j) = 0 := by
  rcases Nat.lt_or_eq_of_le (Nat.succ_le_of_lt hj) with hlt | heq
  · refine .inl ⟨hlt, hc.next j hlt, ?_⟩
    rw [hc.next j hlt]
    exact (hc.address _ hlt).1.ne'
  · have hj' : j = c.len - 1 := by omega
    exact .inr ⟨hj', by rw [hj']; exact hc.last⟩

/-- The result of a `commit_value`: the process goes on with the committed value. -/
theorem Taken.committed {newv : Nat} {l : Nat × Nat} {K : Nat → Option Config} {log : Nat → Nat}
    (ht : Taken c K p (.commit newv) l)
    (hnext : ∀ i k s, K i = some (.commit k, s) → log i ≠ 0 → K (i + 1) = some (settle (k (log i)) s))
    (hwritten : log (p.pos - 1) ≠ 0) :
    ProcOk c K (p.commitDone (log (p.pos - 1))) ∧ (p.commitDone (log (p.pos - 1))).pc.new = none := by
  obtain ⟨hfits, i, hi, hlt, _, hcur, hK, hbs⟩ := ht
  cases hcode : p.code with
  | done | skip _ _ =>
      rw [hcode] at hfits
      exact absurd hfits id
  | commit k =>
      rw [hi, Nat.add_sub_cancel] at hwritten ⊢
      rw [hcode] at hK
      simp only [Process.commitDone, hcode]
      refine ⟨⟨?_, ?_, ?_, ?_⟩, rfl⟩
      · show (p.vals, p.count) = c.cursor p.pos
        rw [hi]
        exact hcur
      · show p.pos ≤ _
        rw [hi]
        exact succ_le_of_div_lt hlt
      · show K p.pos = _
        rw [hi]
        exact hnext i k _ hK hwritten
      · show BlocksOk c K p.pos p.blocks
        rw [hi]
        exact hbs.advance (show K i = some (_, [] ++ frames p.blocks) from hK)

/-- The code after a commit. -/
theorem codeAt_commit {log : Nat → Nat} {i : Nat} {k : Nat → Code} {s : List (Nat × Code)}
    (hK : codeAt log code i = some (.commit k, s)) (hi : log i ≠ 0) :
    codeAt log code (i + 1) = some (settle (k (log i)) s) := by
  simp [codeAt, hK, hi]

/-- The code at the start of a block. -/
theorem codeAt_skip {log : Nat → Nat} {i : Nat} {body k : Code} {s : List (Nat × Code)}
    (hK : codeAt log code i = some (.skip body k, s)) :
    codeAt log code (i + 1) = some (settle body ((i, k) :: s)) := by
  simp [codeAt, hK]

section

variable {q : ι}

/-- The entry of a process, by its number. -/
theorem Taken.entries {K : Nat → Option Config} {o : Op} {l : Nat × Nat} (ht : Taken c K p o l) :
    m.entries l.1 l.2 = c.log m (p.pos - 1) ∧ (p.pos - 1) / logLen < c.len ∧
      l = c.entry (p.pos - 1) ∧ K (p.pos - 1) = some (p.code, frames p.blocks) ∧ p.pos - 1 + 1 = p.pos := by
  obtain ⟨_, i, hi, hlt, hl, _, hK, _⟩ := ht
  rw [hi, Nat.add_sub_cancel]
  refine ⟨?_, hlt, hl, hK, rfl⟩
  rw [hl, Chain.log, if_pos hlt]

/-- A `commit_value` finds its entry written. -/
theorem Taken.step_found {newv : Nat} {l : Nat × Nat} (hinv : LogInv head code c m ends)
    (hist : HistOk code c m ends h) (ht : Taken c (codeAt (c.log m) code) p (.commit newv) l)
    (hne : m.entries l.1 l.2 ≠ 0) :
    StepOk head code c m ends h p [.committed q (p.pos - 1) newv (m.entries l.1 l.2) false] c m ends
      (p.commitDone (m.entries l.1 l.2)) := by
  obtain ⟨hval, _, _, hK, _⟩ := ht.entries (m := m)
  rw [hval] at hne ⊢
  obtain ⟨hproc, hnew⟩ := ht.committed (fun i k s => codeAt_commit) hne
  refine .of_proc hinv (hist.step (Ext.refl c m ends) hinv ?_ ?_ ?_ (by simp)) hproc hnew
  · intro p' i v r b hmem
    simp only [List.mem_singleton, Event.committed.injEq] at hmem
    obtain ⟨_, rfl, _, rfl, rfl⟩ := hmem
    refine ⟨rfl, hne, by simp, ?_⟩
    have hfits := ht.1
    cases hcode : p.code with
    | done | skip _ _ =>
        rw [hcode] at hfits
        exact absurd hfits id
    | commit k => exact ⟨k, _, by rw [hK, hcode]⟩
  · intro i
    simp [Event.wins]
  · intro i k s _ hold hi
    exact absurd hold hi

/-- A `commit_value` writes its entry. -/
theorem Taken.step_wins {newv : Nat} {l : Nat × Nat} (hinv : LogInv head code c m ends)
    (hist : HistOk code c m ends h) (ht : Taken c (codeAt (c.log m) code) p (.commit newv) l)
    (hzero : m.entries l.1 l.2 = 0) :
    StepOk head code c m ends h p [.committed q (p.pos - 1) newv newv true] c (m.setEntry l newv) ends
      (p.commitDone newv) := by
  obtain ⟨hval, hlt, hl, hK, _⟩ := ht.entries (m := m)
  rw [hval] at hzero
  have hfits := ht.1
  obtain ⟨k, hcode⟩ : ∃ k, p.code = .commit k := by
    cases hcode : p.code with
    | done | skip _ _ =>
        rw [hcode] at hfits
        exact absurd hfits id
    | commit k => exact ⟨k, rfl⟩
  have hnewv : newv ≠ 0 := by
    rw [hcode] at hfits
    exact hfits
  have hlog : c.log (m.setEntry l newv) = Function.update (c.log m) (p.pos - 1) newv := by
    rw [hl]
    exact hinv.chain.log_setEntry hlt newv
  have hself : c.log (m.setEntry l newv) (p.pos - 1) = newv := by rw [hlog, Function.update_self]
  have hother : ∀ {i}, i ≠ p.pos - 1 → c.log (m.setEntry l newv) i = c.log m i := by
    intro i hne
    rw [hlog, Function.update_of_ne hne]
  have hext : Ext c m ends c (m.setEntry l newv) ends := by
    refine ⟨le_rfl, fun _ _ => rfl, fun i hi => hother ?_, fun _ _ => rfl⟩
    rintro rfl
    exact hi hzero
  -- The entry that has been written is the one of this call.
  have hwritten : ∀ {i}, c.log m i = 0 → c.log (m.setEntry l newv) i ≠ 0 → i = p.pos - 1 := by
    intro i hold hi
    by_contra hne
    rw [hother hne] at hi
    exact hi hold
  have hK' := hext.codeAt hK
  obtain ⟨hproc, hnew⟩ := (show Taken c (codeAt (c.log (m.setEntry l newv)) code) p (.commit newv) l from
    hext.procOk (p := { p with pc := .swap newv l }) hinv.chain.pos ht).committed
    (fun i k s => codeAt_commit) (show c.log (m.setEntry l newv) (p.pos - 1) ≠ 0 by rwa [hself])
  rw [hself] at hproc hnew
  refine ⟨hext, hinv.ext hext (hinv.chain.setEntry l newv) ?_, hist.step hext hinv ?_ ?_ ?_ (by simp),
    hproc, fun a ha => ?_, fun a ha _ => ?_⟩
  · intro i hold hi
    obtain rfl := hwritten hold hi
    refine ⟨⟨_, hK'⟩, fun body k' s hskip => ?_⟩
    rw [hK', hcode] at hskip
    cases hskip
  · intro p' i v r b hmem
    simp only [List.mem_singleton, Event.committed.injEq] at hmem
    obtain ⟨_, rfl, rfl, rfl, _⟩ := hmem
    exact ⟨hself, hnewv, fun _ => rfl, k, _, by rw [hK', hcode]⟩
  · intro i
    refine ⟨?_, fun hi => ?_⟩
    · exact (List.countP_le_length).trans (by simp)
    · rw [List.countP_eq_zero]
      intro e he hwins
      rw [List.mem_singleton.mp he] at hwins
      simp only [Event.wins, Bool.and_true, decide_eq_true_eq] at hwins
      rw [hwins] at hzero
      exact hi hzero
  · intro i k' s _ hold hi
    obtain rfl := hwritten hold hi
    exact ⟨q, by rw [hself]; simp⟩
  · rw [hnew] at ha
    cases ha
  · refine hext.private ha rfl rfl ?_ fun i hge hi => absurd hi (Nat.not_lt.mpr hge)
    show Function.update m.entries l.1 _ a = m.entries a
    rw [Function.update_of_ne]
    rw [hl]
    exact Ne.symm (ha.outside _ hlt)

/-- `skip_if_done` finds its block done. -/
theorem Taken.step_skip {l : Nat × Nat} (hinv : LogInv head code c m ends)
    (hist : HistOk code c m ends h) (ht : Taken c (codeAt (c.log m) code) p .skip l)
    (hne : m.entries l.1 l.2 ≠ 0) :
    StepOk head code c m ends h p [.passed q (p.pos - 1) (ends (p.pos - 1))] c m ends
      (p.skipDone (m.entries l.1 l.2 % 2 ^ 48) (m.entries l.1 l.2 >>> 48) (ends (p.pos - 1))) := by
  obtain ⟨hval, _, _, hK, _⟩ := ht.entries (m := m)
  rw [hval] at hne ⊢
  obtain ⟨hfits, i, hi, _, _, _, _, hbs⟩ := ht
  rw [hi, Nat.add_sub_cancel] at hne hK ⊢
  have hhist : HistOk code c m ends (h ++ [.passed q i (ends i)]) := by
    refine hist.step (Ext.refl c m ends) hinv (by simp) (by simp [Event.wins]) ?_ ?_
    · intro j k s _ hold hj
      exact absurd hold hj
    · intro p' j e hmem
      simp only [List.mem_singleton, Event.passed.injEq] at hmem
      obtain ⟨_, rfl, rfl⟩ := hmem
      exact ⟨hne, rfl⟩
  cases hcode : p.code with
  | done | commit _ =>
      rw [hcode] at hfits
      exact absurd hfits id
  | skip body k =>
      rw [hcode] at hK
      have hend := hinv.ends i body k _ hK hne
      have haddr : (c.cursor (ends i)).1 < 2 ^ 48 := by
        cases hn : ends i with
        | zero => exact absurd hend.lt (by rw [hn]; exact Nat.not_lt_zero i)
        | succ n =>
            have hle := hend.le
            rw [hn] at hle
            exact (hinv.chain.address _ (Nat.div_lt_of_lt_mul hle)).2
      simp only [Process.skipDone, hcode]
      have hbs' : BlocksOk c (codeAt (c.log m) code) (ends i) p.blocks :=
        hbs.jump (show _ = some (_, [] ++ frames p.blocks) from hK) hend.lt hend.within
      refine .of_proc hinv hhist ⟨?_, hend.le, hend.code, hbs'⟩ rfl
      rw [hend.stored, encode_vals haddr, encode_count haddr]

/-- `skip_if_done` starts its block. -/
theorem Taken.step_enter {l : Nat × Nat} (hinv : LogInv head code c m ends)
    (hist : HistOk code c m ends h) (ht : Taken c (codeAt (c.log m) code) p .skip l) :
    StepOk head code c m ends h p [] c m ends (p.enter l) := by
  obtain ⟨hfits, i, hi, hlt, hl, hcur, hK, hbs⟩ := ht
  cases hcode : p.code with
  | done | commit _ =>
      rw [hcode] at hfits
      exact absurd hfits id
  | skip body k =>
      rw [hcode] at hK
      simp only [Process.enter, hcode]
      refine .of_proc hinv (by rwa [List.append_nil]) ⟨?_, ?_, ?_, ?_⟩ rfl
      · show (p.vals, p.count) = c.cursor p.pos
        rw [hi]
        exact hcur
      · show p.pos ≤ _
        rw [hi]
        exact succ_le_of_div_lt hlt
      · show codeAt (c.log m) code p.pos = _
        rw [hi]
        exact codeAt_skip hK
      · show BlocksOk c _ p.pos _
        rw [hi]
        refine ⟨⟨hl, Nat.lt_succ_self i, ⟨body, hK⟩, fun j hij hj => ?_⟩, ?_⟩
        · have hij : i < j := hij
          omega
        · exact hbs.advance (show _ = some (_, [] ++ frames p.blocks) from hK)

/-- The end of a block is stored. -/
theorem step_store {b : Block} {bs : List Block} (hinv : LogInv head code c m ends)
    (hist : HistOk code c m ends h) (hp : ProcOk c (codeAt (c.log m) code) p) (hready : p.pc = .ready)
    (hcode : p.code = .done) (hblocks : p.blocks = b :: bs) :
    StepOk head code c m ends h p [.passed q b.start p.pos] c
      (m.setEntry b.entry (encode p.count p.vals)) (Function.update ends b.start p.pos)
      { p with code := b.rest, blocks := bs } := by
  unfold ProcOk at hp
  rw [hready] at hp
  obtain ⟨hcur, hle, hK, hbs⟩ := hp
  rw [hblocks] at hK hbs
  rw [hcode] at hK
  obtain ⟨⟨hentry, hlt, ⟨body, hbody⟩, hw⟩, hrest⟩ := hbs
  have hK : codeAt (c.log m) code p.pos = some (settle b.rest (frames bs)) := hK
  have hstart : b.start / logLen < c.len := Nat.div_lt_of_lt_mul (hlt.trans_le hle)
  have haddr : 0 < p.vals ∧ p.vals < 2 ^ 48 := by
    cases hn : p.pos with
    | zero =>
        rw [hn] at hlt
        exact absurd hlt (Nat.not_lt_zero _)
    | succ n =>
        rw [hn] at hcur hle
        simp only [Chain.cursor, Prod.mk.injEq] at hcur
        rw [hcur.1]
        exact hinv.chain.address _ (Nat.div_lt_of_lt_mul hle)
  simp only [Prod.ext_iff] at hcur
  have hstored : encode p.count p.vals = encode (c.cursor p.pos).2 (c.cursor p.pos).1 := by
    rw [← hcur.1, ← hcur.2]
  have hlog : c.log (m.setEntry b.entry (encode p.count p.vals)) =
      Function.update (c.log m) b.start (encode p.count p.vals) := by
    rw [hentry]
    exact hinv.chain.log_setEntry hstart _
  have hself : c.log (m.setEntry b.entry (encode p.count p.vals)) b.start = encode p.count p.vals := by
    rw [hlog, Function.update_self]
  have hother : ∀ {i}, i ≠ b.start →
      c.log (m.setEntry b.entry (encode p.count p.vals)) i = c.log m i := by
    intro i hne
    rw [hlog, Function.update_of_ne hne]
  -- Whoever has stored the end of this block before has stored the same one.
  have hsame : c.log m b.start ≠ 0 → ends b.start = p.pos ∧
      c.log m b.start = encode p.count p.vals := by
    intro hne
    obtain ⟨hlt', _, hst, hcode', hw'⟩ := hinv.ends b.start body b.rest _ hbody hne
    have heq := Within.end_unique hbody hw' hw hlt' hlt hcode' hK
    exact ⟨heq, by rw [hst, heq, hstored]⟩
  have hext : Ext c m ends c (m.setEntry b.entry (encode p.count p.vals))
      (Function.update ends b.start p.pos) := by
    refine ⟨le_rfl, fun _ _ => rfl, fun i hi => ?_, fun i hi => ?_⟩
    · rcases eq_or_ne i b.start with rfl | hne
      · rw [hself, (hsame hi).2]
      · exact hother hne
    · rcases eq_or_ne i b.start with rfl | hne
      · rw [Function.update_self, (hsame hi).1]
      · rw [Function.update_of_ne hne]
  have hwritten : ∀ {i}, c.log m i = 0 →
      c.log (m.setEntry b.entry (encode p.count p.vals)) i ≠ 0 → i = b.start := by
    intro i hold hi
    by_contra hne
    rw [hother hne] at hi
    exact hi hold
  have hbody' := hext.codeAt hbody
  refine ⟨hext, hinv.ext hext (hinv.chain.setEntry _ _) ?_, hist.step hext hinv (by simp)
    (by simp [Event.wins]) ?_ ?_, ?_, fun a ha => ?_, fun a ha _ => ?_⟩
  · intro i hold hi
    obtain rfl := hwritten hold hi
    refine ⟨⟨_, hbody'⟩, fun body' k s hskip => ?_⟩
    rw [hbody'] at hskip
    cases hskip
    rw [Function.update_self]
    exact ⟨hlt, hle, by rw [hself, hstored], hext.codeAt hK, hext.within hw⟩
  · intro i k s hcommit hold hi
    obtain rfl := hwritten hold hi
    rw [hbody'] at hcommit
    cases hcommit
  · intro p' i e hmem
    simp only [List.mem_singleton, Event.passed.injEq] at hmem
    obtain ⟨_, rfl, rfl⟩ := hmem
    rw [hself, Function.update_self]
    exact ⟨encode_ne_zero haddr.2 haddr.1, rfl⟩
  · refine hext.procOk hinv.chain.pos ?_
    unfold ProcOk
    dsimp only
    rw [hready]
    exact ⟨Prod.ext hcur.1 hcur.2, hle, hK, hrest⟩
  · have ha : p.pc.new = some a := ha
    rw [hready] at ha
    cases ha
  · refine hext.private ha rfl rfl ?_ fun i hge hi => absurd hi (Nat.not_lt.mpr hge)
    show Function.update m.entries b.entry.1 _ a = m.entries a
    rw [Function.update_of_ne]
    rw [hentry]
    exact Ne.symm (ha.outside _ hstart)

end

end Steps

end Verlib.Flock.LogArray
