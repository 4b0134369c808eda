import Verlib.Art.Invariant

/-!
# Where a search stops

A search for a key goes down through the nodes whose first `byte_num` bytes are those of the key. The keys that
are not below the slot where it stops are different from the key, and writing to the slot leaves them alone.
-/

namespace Verlib.Art

open Verlib.Radix

variable {n : Nat} {V : Type}

/-! ## The path of a search -/

/-- A search for `k` leads from a node to another one. The context of a node is the position and the predicate of
the invariant. -/
inductive Descent (k : Key n) :
    Node n V → Nat → (Key n → Prop) → List Nat → Node n V → Nat → (Key n → Prop) → Prop where
  | here {t : Node n V} {pos : Nat} {P : Key n → Prop} : Descent k t pos P [] t pos P
  | down {key : Key n} {byteNum size : Nat} {slots : Slots} {ptr : Nat → Node n V} {pos pos' i : Nat}
      {P P' : Key n → Prop} {a : List Nat} {c : Node n V} :
      Agree k key byteNum → slots.getChild size (getByte k byteNum) = some i →
      Descent k (ptr i) (byteNum + 1) (Below key byteNum (getByte k byteNum)) a c pos' P' →
        Descent k (.inner key byteNum size slots ptr) pos P (i :: a) c pos' P'

section

variable {k : Key n} {t c : Node n V} {pos pos' : Nat} {P P' : Key n → Prop} {a : List Nat}

/-- One slot further. -/
theorem Descent.snoc {key : Key n} {byteNum size i : Nat} {slots : Slots} {ptr : Nat → Node n V}
    (h : Descent k t pos P a (.inner key byteNum size slots ptr) pos' P') (hagree : Agree k key byteNum)
    (hslot : slots.getChild size (getByte k byteNum) = some i) :
    Descent k t pos P (a ++ [i]) (ptr i) (byteNum + 1) (Below key byteNum (getByte k byteNum)) := by
  generalize hx : Node.inner key byteNum size slots ptr = x at h
  induction h with
  | here =>
      subst hx
      exact .down hagree hslot .here
  | down hagree' hslot' _ ih => exact .down hagree' hslot' (ih hx)

/-- The address of a node on the path. -/
theorem Descent.at_ (h : Descent k t pos P a c pos' P') : t.at_ a = c := by
  induction h with
  | here => rfl
  | down _ _ _ ih => exact ih

/-- The invariant holds at the end of the path. -/
theorem Descent.good (h : Descent k t pos P a c pos' P') (hgood : Good t pos P) : Good c pos' P' := by
  induction h with
  | here => exact hgood
  | down hagree hslot _ ih => exact ih (hgood.2.2.2.2 _ ((hgood.1.getChild_eq_some (getByte_lt _ _)).mp hslot))

/-- The end of the path is a context in which the key belongs. -/
theorem Descent.context (h : Descent k t pos P a c pos' P') (hctx : Context pos P) (hk : P k) :
    Context pos' P' ∧ P' k := by
  induction h with
  | here => exact ⟨hctx, hk⟩
  | down hagree _ _ ih => exact ih (context_below _ _ _) ⟨hagree, rfl⟩

/-- The path leads to a node that can be reached. -/
theorem Descent.reachable (h : Descent k t pos P a c pos' P') (hgood : Good t pos P) : Reachable t c := by
  have hgo : ∀ {root : Node n V}, Reachable root t → Reachable root c := by
    induction h with
    | here => exact id
    | down hagree hslot _ ih =>
        intro root hroot
        have hs := (hgood.1.getChild_eq_some (getByte_lt _ _)).mp hslot
        exact ih (hgood.2.2.2.2 _ hs) (hroot.child hs)
  exact hgo .root

/-- What lies outside of a subtree on the path, and what a store there does. -/
structure Outside (k : Key n) (t : Node n V) (pos : Nat) (P : Key n → Prop) (a : List Nat) (c : Node n V)
    (pos' : Nat) (P' : Key n → Prop) (others : List (KV n V)) : Prop where
  different : ∀ kv ∈ others, kv.key ≠ k
  entries : t.entries.Perm (c.entries ++ others)
  good : ∀ c', Good c' pos' P' → Good (t.store a c') pos P
  stored : ∀ c', (t.store a c').entries.Perm (c'.entries ++ others)

/-- The slot of a byte, and the other slots. -/
theorem Slots.Ok.split {slots : Slots} {size : Nat} (hok : slots.Ok size) {s : Nat × Nat} (hs : s ∈ slots.pairs size) :
    ∃ others, (slots.pairs size).Perm (s :: others) ∧
      ∀ s' ∈ others, s' ∈ slots.pairs size ∧ s'.1 ≠ s.1 ∧ s'.2 ≠ s.2 := by
  obtain ⟨front, back, heq⟩ := List.append_of_mem hs
  have hperm : (slots.pairs size).Perm (s :: (front ++ back)) := by
    rw [heq]
    exact List.perm_middle
  have hbytes := (hperm.map Prod.fst).nodup_iff.mp hok.bytes
  have hindices := (hperm.map Prod.snd).nodup_iff.mp hok.indices
  rw [List.map_cons, List.nodup_cons] at hbytes hindices
  refine ⟨front ++ back, hperm, fun s' hs' => ⟨hperm.mem_iff.mpr (List.mem_cons_of_mem _ hs'), ?_, ?_⟩⟩
  · intro h
    exact hbytes.1 (List.mem_map.mpr ⟨s', hs', h⟩)
  · intro h
    exact hindices.1 (List.mem_map.mpr ⟨s', hs', h⟩)

/-- A subtree on the path of `k` can be replaced without touching the other entries, and none of these has the
key `k`. -/
theorem Descent.outside (h : Descent k t pos P a c pos' P') (hgood : Good t pos P) :
    ∃ others, Outside k t pos P a c pos' P' others := by
  induction h with
  | here =>
      refine ⟨[], ⟨fun kv hkv => ?_, ?_, fun c' hc' => hc', fun c' => ?_⟩⟩
      · cases hkv
      · rw [List.append_nil]
      · rw [List.append_nil]
        rfl
  | @down key byteNum size slots ptr pos pos' i P P' a c hagree hslot _ ih =>
      obtain ⟨hok, hkey, hpos, hlt, hchildren⟩ := hgood
      have hs := (hok.getChild_eq_some (getByte_lt _ _)).mp hslot
      obtain ⟨inside, hinside⟩ := ih (hchildren _ hs)
      obtain ⟨rest, hperm, hrest⟩ := hok.split hs
      have hupdate : ∀ x, ∀ s ∈ rest, Function.update ptr i x s.2 = ptr s.2 :=
        fun x s hs => Function.update_of_ne (hrest s hs).2.2 x ptr
      have hentries : ∀ ptr' : Nat → Node n V, (∀ s ∈ rest, ptr' s.2 = ptr s.2) →
          (Node.inner key byteNum size slots ptr').entries.Perm
            ((ptr' i).entries ++ rest.flatMap fun s => (ptr s.2).entries) := by
        intro ptr' hptr
        refine (hperm.flatMap_right _).trans ?_
        rw [List.flatMap_cons, List.flatMap_congr fun s hs => by rw [hptr s hs]]
      refine ⟨inside ++ rest.flatMap fun s => (ptr s.2).entries, ⟨fun kv hkv => ?_, ?_, fun c' hc' => ?_, fun c' => ?_⟩⟩
      · rw [List.mem_append, List.mem_flatMap] at hkv
        cases hkv with
        | inl hkv => exact hinside.different kv hkv
        | inr hkv =>
            -- a key below another slot has another byte
            obtain ⟨s, hs', hkv⟩ := hkv
            have hbelow := ((hchildren s (hrest s hs').1).entries_below (context_below _ _ _) kv hkv).1
            intro heq
            rw [heq] at hbelow
            exact (hrest s hs').2.1 hbelow.2.symm
      · rw [← List.append_assoc]
        exact (hentries ptr fun _ _ => rfl).trans (hinside.entries.append_right _)
      · refine ⟨hok, hkey, hpos, hlt, fun s hs' => ?_⟩
        by_cases heq : s.2 = i
        · have hsame : s = (getByte k byteNum, i) := hok.byte_unique hs' hs heq
          rw [hsame]
          show Good (Function.update ptr i _ i) _ _
          rw [Function.update_self]
          exact hinside.good c' hc'
        · rw [Function.update_of_ne heq]
          exact hchildren s hs'
      · rw [← List.append_assoc]
        refine (hentries _ (hupdate _)).trans (List.Perm.append_right _ ?_)
        rw [Function.update_self]
        exact hinside.stored c'

end

/-! ## `find_location` -/

/-- The loop of `find_location` stops at the first byte that differs, if there is one in its range. -/
theorem matchBytes_spec (k key : Key n) (fuel bytePos : Nat) (h : Agree k key bytePos) :
    Agree k key (matchBytes k key fuel bytePos) ∧ bytePos ≤ matchBytes k key fuel bytePos ∧
      matchBytes k key fuel bytePos ≤ bytePos + fuel ∧
      (matchBytes k key fuel bytePos < bytePos + fuel →
        getByte k (matchBytes k key fuel bytePos) ≠ getByte key (matchBytes k key fuel bytePos)) := by
  induction fuel generalizing bytePos with
  | zero => exact ⟨h, le_rfl, le_rfl, fun hlt => absurd hlt (Nat.lt_irrefl _)⟩
  | succ fuel ih =>
      rw [matchBytes]
      split
      next heq =>
        obtain ⟨hagree, hle, hbound, hne⟩ := ih (bytePos + 1) (agree_succ.mpr ⟨h, heq⟩)
        exact ⟨hagree, by omega, by omega, fun hlt => hne (by omega)⟩
      next hne => exact ⟨h, le_rfl, by omega, fun _ => hne⟩

/-- `stop` is where a comparison of `k` with the first `byteNum` bytes of `key` ends. -/
structure Matched (k key : Key n) (byteNum stop : Nat) : Prop where
  agree : Agree k key stop
  le : stop ≤ byteNum
  differ : stop < byteNum → getByte k stop ≠ getByte key stop

/-- What a search for `k` finds in a node: the slot, what it holds, and where the comparison ended. -/
inductive Stop (k : Key n) : Node n V → Option Nat → Node n V → Nat → Prop where
  | noChild {key : Key n} {byteNum size : Nat} {slots : Slots} {ptr : Nat → Node n V} :
      slots.getChild size (getByte k byteNum) = none →
        Stop k (.inner key byteNum size slots ptr) none .null byteNum
  | emptyChild {key : Key n} {byteNum size i : Nat} {slots : Slots} {ptr : Nat → Node n V} :
      slots.getChild size (getByte k byteNum) = some i → ptr i = .null →
        Stop k (.inner key byteNum size slots ptr) (some i) .null byteNum
  | leaf {key : Key n} {byteNum size i stop : Nat} {slots : Slots} {ptr : Nat → Node n V} {big : Bool}
      {key' : Key n} {byteNum' : Nat} {keyVals : List (KV n V)} :
      slots.getChild size (getByte k byteNum) = some i → ptr i = .leaf big key' byteNum' keyVals →
      Matched k key' byteNum' stop → byteNum < stop →
        Stop k (.inner key byteNum size slots ptr) (some i) (.leaf big key' byteNum' keyVals) stop
  | cutEdge {key : Key n} {byteNum size i stop : Nat} {slots : Slots} {ptr : Nat → Node n V} {key' : Key n}
      {byteNum' size' : Nat} {slots' : Slots} {ptr' : Nat → Node n V} :
      slots.getChild size (getByte k byteNum) = some i → ptr i = .inner key' byteNum' size' slots' ptr' →
      Matched k key' byteNum' stop → byteNum < stop → stop < byteNum' →
        Stop k (.inner key byteNum size slots ptr) (some i) (.inner key' byteNum' size' slots' ptr') stop

/-- The node above the last one on a path. -/
inductive Above (t : Node n V) : Option (List Nat) → List Nat → Prop where
  | root : Above t none []
  | node {gp : List Nat} {key : Key n} {byteNum size i : Nat} {slots : Slots} {ptr : Nat → Node n V} :
      t.at_ gp = .inner key byteNum size slots ptr →
      (∃ b, slots.getChild size b = some i ∧ getByte (ptr i).key byteNum = b) → Above t (some gp) (gp ++ [i])

/-- The node above, seen from one level up. -/
theorem Above.under {key : Key n} {byteNum size i b : Nat} {slots : Slots} {ptr : Nat → Node n V}
    {gp : Option (List Nat)} {p : List Nat} (h : Above (ptr i) gp p)
    (hslot : slots.getChild size b = some i) (hbyte : getByte (ptr i).key byteNum = b) :
    Above (.inner key byteNum size slots ptr) (some (gp.elim [] fun gp => i :: gp)) (i :: p) := by
  cases h with
  | root =>
      show Above _ (some []) ([] ++ [i])
      exact .node rfl ⟨b, hslot, hbyte⟩
  | @node gp _ _ _ j _ _ hat hb =>
      show Above _ (some (i :: gp)) ((i :: gp) ++ [j])
      exact .node hat hb

/-- Where `find_location` stops: at a node on the path of `k` whose first bytes are those of `k`. -/
theorem findLocation_spec {k : Key n} {t : Node n V} {pos : Nat} {P : Key n → Prop} (hgood : Good t pos P)
    (hctx : Context pos P) (hk : P k) (hagree : Agree k t.key t.byteNum) (hinner : t.isNull = false)
    (hleaf : t.isLeaf = false) :
    ∃ x pos' P' i, Descent k t pos P (findLocation k t t.byteNum).p x pos' P' ∧ Agree k x.key x.byteNum ∧
      Stop k x i (findLocation k t t.byteNum).c (findLocation k t t.byteNum).bytePos ∧
      (findLocation k t t.byteNum).cptr = i.map (fun i => (findLocation k t t.byteNum).p ++ [i]) ∧
      Above t (findLocation k t t.byteNum).gp (findLocation k t t.byteNum).p := by
  induction t generalizing pos P with
  | null => cases hinner
  | leaf => cases hleaf
  | inner key byteNum size slots ptr ih =>
      rw [show (Node.inner key byteNum size slots ptr).byteNum = byteNum from rfl, findLocation]
      cases hslot : slots.getChild size (getByte k byteNum) with
      | none => exact ⟨_, _, _, none, .here, hagree, .noChild hslot, rfl, .root⟩
      | some i =>
          simp only
          have hchild := hgood.2.2.2.2 _ ((hgood.1.getChild_eq_some (getByte_lt _ _)).mp hslot)
          split
          next hnull =>
            refine ⟨_, _, _, some i, .here, hagree, .emptyChild hslot ?_, rfl, .root⟩
            cases hc : ptr i with
            | null => rfl
            | leaf =>
                rw [hc] at hnull
                cases hnull
            | inner =>
                rw [hc] at hnull
                cases hnull
          next hnull =>
            have hnull : (ptr i).isNull = false := by simpa using hnull
            have hle : byteNum + 1 ≤ (ptr i).byteNum := hchild.pos_le hnull
            have hbelow : Below key byteNum (getByte k byteNum) k := ⟨hagree, rfl⟩
            have hkey : Below key byteNum (getByte k byteNum) (ptr i).key := by
              cases hc : ptr i with
              | null =>
                  rw [hc] at hnull
                  cases hnull
              | leaf =>
                  rw [hc] at hchild
                  obtain ⟨kv, hkv, hkveq⟩ := hchild.1.key_mem
                  rw [Node.key, ← hkveq]
                  exact hchild.2.2 kv hkv
              | inner =>
                  rw [hc] at hchild
                  exact hchild.2.1
            have hlead := (context_below key byteNum (getByte k byteNum)).fixed _ _ hbelow hkey
            obtain ⟨hagree', hge, hbound, hne⟩ :=
              matchBytes_spec k (ptr i).key ((ptr i).byteNum - (byteNum + 1)) (byteNum + 1) hlead
            generalize matchBytes k (ptr i).key ((ptr i).byteNum - (byteNum + 1)) (byteNum + 1) = stop at *
            have hmatched : Matched k (ptr i).key (ptr i).byteNum stop :=
              ⟨hagree', by omega, fun hlt => hne (by omega)⟩
            split
            next hstop =>
              cases hc : ptr i with
              | null =>
                  rw [hc] at hnull
                  cases hnull
              | leaf =>
                  rw [hc] at hmatched
                  exact ⟨_, _, _, some i, .here, hagree, .leaf hslot hc hmatched hge, rfl, .root⟩
              | inner =>
                  have hlt : stop < (ptr i).byteNum := by
                    refine Nat.lt_of_le_of_ne hmatched.le ?_
                    cases hstop with
                    | inl h => exact h
                    | inr h =>
                        rw [hc] at h
                        cases h
                  rw [hc] at hmatched hlt
                  exact ⟨_, _, _, some i, .here, hagree, .cutEdge hslot hc hmatched hge hlt, rfl, .root⟩
            next hgo =>
              rw [not_or, not_not, Bool.not_eq_true] at hgo
              rw [hgo.1] at hagree' ⊢
              obtain ⟨x, pos', P', j, hdescent, hx, hstop, hcptr, habove⟩ :=
                ih i hchild (context_below _ _ _) hbelow hagree' hnull hgo.2
              refine ⟨x, pos', P', j, .down hagree hslot hdescent, hx, hstop, ?_, habove.under hslot hkey.2⟩
              show (findLocation k (ptr i) (ptr i).byteNum).cptr.map _ = _
              rw [hcptr, Option.map_map]
              rfl

end Verlib.Art
