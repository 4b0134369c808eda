import Verlib.Interleaving.Histories
import Verlib.Interleaving.Timeline
import Verlib.SnapshotList.Steps

/-!
# What the history says of the memory

Every stored version is the version of one call, and its stamp is in the history as soon as it has one. Replayed in
the order of the stamps, the updates of the history up to a stamp make the entries of its list.
-/

namespace Verlib.SnapshotList

open Interleaving Interleaving.Versions Indirect
open SortedList (Op root)

variable {K V R ι : Type}

/-! ## Histories -/

/-- The number of the call that an event belongs to. -/
def What.number : What K V R ι → Nat
  | .call _ n _ | .stamp _ n _ _ | .ret _ n _ | .withSnapshot _ n _ | .began _ n _ | .answer _ n _ => n

/-- The thread that an event shows; a stamp may be given by any thread. -/
def What.thread : What K V R ι → Option ι
  | .call c _ _ | .ret c _ _ | .withSnapshot c _ _ | .began c _ _ | .answer c _ _ => some c
  | .stamp .. => none

/-- An event fits a history. The number of a call is new. A call gets one stamp at most, while it runs and not larger
than the clock, nor smaller than the clock at the call; it returns true if it has got one. The stamp of a snapshot is
smaller than the clock, but not smaller than the clock at its call. -/
def Fits (h : List (Event K V R ι)) (e : Event K V R ι) : Prop :=
  (∀ e' ∈ h, e'.clock ≤ e.clock) ∧
    match e.what with
    | .call _ n _ | .withSnapshot _ n _ => ∀ e' ∈ h, e'.what.number ≠ n
    | .stamp c n o t => t ≤ e.clock ∧ (∃ k ≤ t, ⟨k, .call c n o⟩ ∈ h) ∧ (∀ k b, ⟨k, .ret c n b⟩ ∉ h) ∧
        ∀ k o' t', ⟨k, .stamp c n o' t'⟩ ∉ h
    | .ret c n b => (∃ k o, ⟨k, .call c n o⟩ ∈ h) ∧ (b = true ↔ ∃ k o t, ⟨k, .stamp c n o t⟩ ∈ h)
    | .began c n ls => ls < e.clock ∧ (∃ k ≤ ls, ∃ f, ⟨k, .withSnapshot c n f⟩ ∈ h) ∧ ∀ k ls', ⟨k, .began c n ls'⟩ ∉ h
    | .answer c n _ => ∃ k ls, ⟨k, .began c n ls⟩ ∈ h

/-- The updates with their stamps, in the order in which they got them. -/
def stamps (h : List (Event K V R ι)) : List ((ι × Nat × Op K V) × Nat) :=
  h.filterMap fun e => match e.what with
    | .stamp c n o t => some ((c, n, o), t)
    | _ => none

theorem mem_stamps {h : List (Event K V R ι)} {c : ι} {n t : Nat} {o : Op K V} :
    ((c, n, o), t) ∈ stamps h ↔ ∃ k, ⟨k, .stamp c n o t⟩ ∈ h := by
  rw [stamps, List.mem_filterMap]
  constructor
  · intro hmem
    obtain ⟨⟨k, w⟩, he, heq⟩ := hmem
    cases w with
    | stamp c' n' o' t' =>
        cases heq
        exact ⟨k, he⟩
    | _ => cases heq
  · intro hmem
    obtain ⟨k, he⟩ := hmem
    exact ⟨_, he, rfl⟩

/-- What an update does to a map. -/
def actOf [DecidableEq K] (map : K → Option V) (x : ι × Nat × Op K V) : (K → Option V) × OrderedMap.Result V :=
  (toMap x.2.2).act map

/-- An update reads and writes the entry of its key. -/
theorem actOf_local [DecidableEq K] (x : ι × Nat × Op K V) : ∃ g : Option V → Option V × OrderedMap.Result V, ∀ map,
    actOf map x = (Function.update map x.2.2.key (g (map x.2.2.key)).1, (g (map x.2.2.key)).2) := by
  obtain ⟨c, n, o⟩ := x
  cases o with
  | insert k v =>
      refine ⟨fun e => (if e.isSome then e else some v, .changed e.isNone), fun map => ?_⟩
      show OrderedMap.Op.act map (.insert k v) = _
      rw [OrderedMap.Op.act_insert]
      show (if (map k).isSome then map else _, _) = (Function.update map k (if (map k).isSome then _ else _), _)
      split
      · exact Prod.ext (Function.update_eq_self k map).symm rfl
      · rfl
  | remove k =>
      refine ⟨fun e => (none, .changed e.isSome), fun map => ?_⟩
      show OrderedMap.Op.act map (.remove k) = _
      rw [OrderedMap.Op.act_remove]
      show (if (map k).isSome then _ else map, _) = (Function.update map k none, _)
      split
      · rfl
      · rename_i hnone
        have hsame : Function.update map k none = map := by
          rw [← Option.not_isSome_iff_eq_none.mp hnone, Function.update_eq_self]
        exact Prod.ext hsame.symm rfl

/-- Updates of different keys commute. -/
theorem actOf_comm [DecidableEq K] {x y : ι × Nat × Op K V} {map map₁ map₂ : K → Option V} {ok : OrderedMap.Result V}
    (hkey : x.2.2.key ≠ y.2.2.key) (hx : actOf map x = (map₁, ok)) (hy : actOf map₁ y = (map₂, ok)) :
    ∃ map', actOf map y = (map', ok) ∧ actOf map' x = (map₂, ok) := by
  obtain ⟨gx, hgx⟩ := actOf_local x
  obtain ⟨gy, hgy⟩ := actOf_local y
  rw [hgx] at hx
  obtain ⟨rfl, hokx⟩ := Prod.mk.inj hx
  rw [hgy, Function.update_of_ne hkey.symm] at hy
  obtain ⟨rfl, hoky⟩ := Prod.mk.inj hy
  refine ⟨Function.update map y.2.2.key (gy (map y.2.2.key)).1, ?_, ?_⟩
  · rw [hgy, hoky]
  · rw [hgx, Function.update_of_ne hkey, hokx, Function.update_comm hkey.symm]

variable [LinearOrder K]

/-- The body of a snapshot with the stamp `ls` has got from `f₀` to `f`, through pointers in which nothing will change
any more for `ls`. -/
inductive Follows (m : Memory K V ι) (ls : Nat) (f₀ : Body K V R) : Body K V R → Prop where
  | refl : Follows m ls f₀ f₀
  | load {a : Nat} {f : Nat → Body K V R} (h : Follows m ls f₀ (.load a f)) (ha : a < m.fresh)
      (hset : m.versions.Settled ls a) : Follows m ls f₀ (f (m.view ls a))
  | node {a : Nat} {f : Node K V → Body K V R} (h : Follows m ls f₀ (.node a f)) (ha : a < m.fresh) :
      Follows m ls f₀ (f (m.nodes a))

/-- What the history says of the memory. -/
structure Records (h : List (Event K V R ι)) (m : Memory K V ι) : Prop where
  fits : Each Fits h
  clocks : ∀ e ∈ h, e.clock ≤ m.versions.clock
  numbers : ∀ e ∈ h, e.what.number < m.calls
  called : ∀ p i c n o, m.Author p i c n o → ∃ k ≤ m.versions.born p (i + 1), ⟨k, .call c n o⟩ ∈ h
  one : ∀ p i q j c n o o', m.Author p i c n o → m.Author q j c n o' → p = q ∧ i = j
  noted : ∀ p i c n o t, m.Author p i c n o → m.versions.stamp p (i + 1) = some t → ∃ k, ⟨k, .stamp c n o t⟩ ∈ h
  real : ∀ k c n o t, ⟨k, .stamp c n o t⟩ ∈ h → ∃ p i, m.Author p i c n o ∧ m.versions.stamp p (i + 1) = some t
  running : ∀ p i c n o, m.Author p i c n o → m.versions.stamp p (i + 1) = none → ∀ k b, ⟨k, .ret c n b⟩ ∉ h
  keys : ∀ p i c n o, m.Author p i c n o → m.versions.stamp p (i + 1) = none →
    ∀ k c' n' o' t, ⟨k, .stamp c' n' o' t⟩ ∈ h → o'.key = o.key → t ≤ m.versions.born p (i + 1)
  answers : ∀ k c n r, ⟨k, .answer c n r⟩ ∈ h → ∃ f ls, (∃ k, ⟨k, .withSnapshot c n f⟩ ∈ h) ∧
    (∃ k, ⟨k, .began c n ls⟩ ∈ h) ∧ Begun m ls ∧ Follows m ls f (.ret r)
  replay : ∀ ls, zeroStamp ≤ ls → ∃ map, Plays actOf (.changed true) (upTo (timeline (stamps h)) ls) (fun _ => none) map ∧
    Represents map (m.Contains ls)

section

variable {h : List (Event K V R ι)} {m m' : Memory K V ι} {ls : Nat} {f₀ f : Body K V R}

/-! ## Bodies of snapshots -/

theorem Follows.stable (hf : Follows m ls f₀ f) (hinv : Inv m) (hinv' : Inv m') (hext : Ext m m') (hls : Begun m ls) :
    Follows m' ls f₀ f := by
  induction hf with
  | refl => exact .refl
  | @load a f hf ha hset ih =>
      obtain ⟨hcut, hset'⟩ := hext.grows.settled hinv'.ordered (hinv.within hls.1 a) hls.2 hset
      have hcut : m'.versions.cut ls a = m.versions.cut ls a := hcut
      have hview : m'.view ls a = m.view ls a := by
        rw [Memory.view, hcut, hext.next ha cut_le]
        rfl
      rw [← hview]
      exact ih.load (ha.trans_le hext.fresh) hset'
  | @node a f hf ha ih =>
      rw [← hext.nodes a ha]
      exact ih.node (ha.trans_le hext.fresh)

omit [LinearOrder K] in
/-- What is left of a body gives the result of the body. -/
theorem Follows.run (hf : Follows m ls f₀ f) : f.run (m.view ls) m.nodes = f₀.run (m.view ls) m.nodes := by
  induction hf with
  | refl => rfl
  | load hf ha hset ih => exact ih
  | node hf ha ih => exact ih

end

end Verlib.SnapshotList
