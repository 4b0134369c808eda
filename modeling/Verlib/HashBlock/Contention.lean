import Verlib.HashBlock.Machine

/-!
# Updates under contention

A call knows its old node, which it has loaded, and the node that it has built from it. Nodes do not change, so
what a call knows of them survives the steps of the others; and when the install finds the old node in the
bucket, the new one differs from the content of the bucket in the key of the call only. The kinds of nodes that
the updates select agree with the one that is selected when a node is given back, since both follow from the
number of entries.
-/

namespace Verlib.HashBlock

open Interleaving

variable {K V : Type} {E : Keys K} {bits : Nat} {build : Build} {m m' : Memory K V}

/-! ## The memory -/

/-- A pointer leads to a node, or is null. -/
def Memory.Allocated (m : Memory K V) (old : Option Nat) : Prop :=
  ∀ a, old = some a → a < m.fresh

/-- The invariant of the memory: buckets point to nodes, nodes are well formed, a bucket holds only keys that
belong to it, and nodes have been given back to their own pools. -/
structure Inv (E : Keys K) (bits : Nat) (m : Memory K V) : Prop where
  buckets : ∀ b, m.Allocated (m.buckets b)
  nodes : ∀ a, a < m.fresh → (m.nodes a).Ok E
  placed : ∀ b k, m.value E (m.buckets b) k ≠ none → getBucket E bits k = b
  freed : ∀ x ∈ m.freed, x.1 < m.fresh ∧ x.2 = (m.nodes x.1).pool

/-- What a step leaves of the nodes. -/
structure Ext (m m' : Memory K V) : Prop where
  fresh : m.fresh ≤ m'.fresh
  nodes : ∀ a, a < m.fresh → m'.nodes a = m.nodes a

/-- The nodes stay where they are. -/
theorem Ext.refl (m : Memory K V) : Ext m m :=
  ⟨le_rfl, fun _ _ => rfl⟩

/-- A pointer to a node stays one. -/
theorem Memory.Allocated.ext {old : Option Nat} (hold : m.Allocated old) (hext : Ext m m') :
    m'.Allocated old :=
  fun a ha => (hold a ha).trans_le hext.fresh

/-- The values of a node stay. -/
theorem Memory.Allocated.value {old : Option Nat} (hold : m.Allocated old) (hext : Ext m m') (k : K) :
    m'.value E old k = m.value E old k := by
  cases old with
  | none => rfl
  | some a =>
      show lookup E (m'.nodes a).entries k = lookup E (m.nodes a).entries k
      rw [hext.nodes a (hold a rfl)]

/-- Equal keys belong to the same bucket. -/
theorem getBucket_congr {k k' : K} (h : E.keyEqual k k' = true) :
    getBucket E bits k = getBucket E bits k' := by
  unfold getBucket
  rw [E.hash_eq k k' h]

/-- The lookup of an update says whether the node has the key. -/
theorem Inv.found (hinv : Inv E bits m) {old : Option Nat} (hold : m.Allocated old) (k : K) :
    m.found E old k = some (m.value E old k).isSome := by
  cases old with
  | none => rfl
  | some a =>
      have hok := hinv.nodes a (hold a rfl)
      show ((m.nodes a).findIndex E k).map Option.isSome = some (lookup E (m.nodes a).entries k).isSome
      have hiff := hok.findIndex_eq_none_iff k
      rw [hok.findIndex] at hiff ⊢
      rw [Option.map_some]
      rw [Option.some.injEq] at hiff
      congr 1
      rw [Bool.eq_iff_iff, Option.isSome_iff_ne_none, Option.isSome_iff_ne_none, ne_eq, ne_eq, hiff]

/-- An allocation changes no node that is there. -/
theorem ext_newObj (m : Memory K V) (n : Node K V) : Ext m (m.newObj n) where
  fresh := Nat.le_succ _
  nodes _ ha := Function.update_of_ne (Nat.ne_of_lt ha) _ _

/-- The new node. -/
theorem newObj_self (m : Memory K V) (n : Node K V) : (m.newObj n).nodes m.fresh = n :=
  Function.update_self _ _ _

/-- A well-formed node is allocated. -/
theorem Inv.newObj (hinv : Inv E bits m) {n : Node K V} (hn : n.Ok E) : Inv E bits (m.newObj n) where
  buckets b := (hinv.buckets b).ext (ext_newObj m n)
  nodes a ha := by
    by_cases heq : a = m.fresh
    · rw [heq, newObj_self]
      exact hn
    · have hlt : a < m.fresh := Nat.lt_of_le_of_ne (Nat.le_of_lt_succ ha) heq
      rw [(ext_newObj m n).nodes a hlt]
      exact hinv.nodes a hlt
  placed b k hk := by
    refine hinv.placed b k ?_
    rw [← (hinv.buckets b).value (ext_newObj m n)]
    exact hk
  freed x hx := by
    obtain ⟨hlt, hpool⟩ := hinv.freed x hx
    refine ⟨hlt.trans (Nat.lt_succ_self _), ?_⟩
    rw [(ext_newObj m n).nodes x.1 hlt]
    exact hpool

/-- An allocation leaves the map as it is. -/
theorem Inv.same_newObj (hinv : Inv E bits m) (n : Node K V) : (spec E bits).Same m (m.newObj n) := by
  refine ⟨rfl, funext fun k => ?_⟩
  exact (hinv.buckets _).value (ext_newObj m n) k

/-- A node is given back to its own pool. -/
theorem Inv.free (hinv : Inv E bits m) {old : Option Nat} (hold : m.Allocated old)
    {pool : Node K V → Pool} (hpool : ∀ n : Node K V, n.Ok E → pool n = n.pool) :
    Inv E bits (m.free pool old) ∧ Ext m (m.free pool old) ∧ (spec E bits).Same m (m.free pool old) := by
  cases old with
  | none => exact ⟨hinv, Ext.refl m, rfl, rfl⟩
  | some a =>
      refine ⟨⟨hinv.buckets, hinv.nodes, hinv.placed, fun x hx => ?_⟩, ⟨le_rfl, fun _ _ => rfl⟩, rfl, rfl⟩
      cases List.mem_cons.mp hx with
      | inl heq =>
          rw [heq]
          exact ⟨hold a rfl, hpool _ (hinv.nodes a (hold a rfl))⟩
      | inr hmem => exact hinv.freed x hmem

/-! ## What a call knows -/

/-- A call has built `new` from `old`, and will return `r` if it installs it. -/
structure Prepared (E : Keys K) (o : Op K V) (m : Memory K V) (old new : Option Nat) (r : Bool) : Prop where
  loaded : m.Allocated old
  built : m.Allocated new
  applies : o.Applies (m.value E old o.key) r
  value : ∀ k, m.value E new k =
    if E.keyEqual o.key k then o.stores (m.value E old o.key) else m.value E old k

/-- What a call knows at each position. -/
def Known (E : Keys K) (o : Op K V) (m : Memory K V) : Pos → Prop
  | .start => True
  | .check old new r | .install old new r => Prepared E o m old new r
  | .update a => a < m.fresh ∧ ∃ k f v, o = .upsert k f ∧ m.value E (some a) k = some v
  | .validate old => m.Allocated old ∧ o.Refuses (m.value E old o.key) false
  | .retire old _ => m.Allocated old
  | .destruct new => m.Allocated new

/-- The result of a call that has installed its node. -/
def Pos.done : Pos → Option Bool
  | .retire _ r => some r
  | _ => none

/-- What a call knows survives the steps of the others. -/
theorem Known.ext {o : Op K V} {p : Pos} (hp : Known E o m p) (hext : Ext m m') : Known E o m' p := by
  have hprepared : ∀ {old new r}, Prepared E o m old new r → Prepared E o m' old new r := by
    intro old new r h
    refine ⟨h.loaded.ext hext, h.built.ext hext, ?_, fun k => ?_⟩
    · rw [h.loaded.value hext]
      exact h.applies
    · rw [h.built.value hext, h.loaded.value hext, h.loaded.value hext]
      exact h.value k
  cases p with
  | start => exact hp
  | check old new r => exact hprepared hp
  | install old new r => exact hprepared hp
  | update a =>
      obtain ⟨ha, k, f, v, ho, hv⟩ := hp
      refine ⟨ha.trans_le hext.fresh, k, f, v, ho, ?_⟩
      have hold : m.Allocated (some a) := by
        intro b hb
        cases hb
        exact ha
      rw [hold.value hext]
      exact hv
  | validate old =>
      refine ⟨hp.1.ext hext, ?_⟩
      rw [hp.1.value hext]
      exact hp.2
  | retire old r => exact Memory.Allocated.ext hp hext
  | destruct new => exact Memory.Allocated.ext hp hext

/-- The node that a call has built from what it has loaded. -/
theorem Prepared.newObj {o : Op K V} {old : Option Nat} {n : Node K V} {r : Bool} (hold : m.Allocated old)
    (happ : o.Applies (m.value E old o.key) r)
    (hlook : ∀ k, lookup E n.entries k =
      if E.keyEqual o.key k then o.stores (m.value E old o.key) else m.value E old k) :
    Prepared E o (m.newObj n) old (some m.fresh) r := by
  refine ⟨hold.ext (ext_newObj m n), ?_, ?_, fun k => ?_⟩
  · intro a ha
    cases ha
    exact Nat.lt_succ_self _
  · rw [hold.value (ext_newObj m n)]
    exact happ
  · rw [hold.value (ext_newObj m n), hold.value (ext_newObj m n), ← hlook k]
    show lookup E ((m.newObj n).nodes m.fresh).entries k = _
    rw [newObj_self]

/-- `insert_to_node` on what a call has loaded. -/
theorem Inv.insertToNode (hinv : Inv E bits m) {old : Option Nat} (hold : m.Allocated old) {k : K}
    (hk : m.value E old k = none) (v : V) :
    ∃ n, insertToNode (old.map m.nodes) k v = some n ∧ n.Ok E ∧
      ∀ k', lookup E n.entries k' = if E.keyEqual k k' then some v else m.value E old k' := by
  cases old with
  | none => exact insertToNode_none k v
  | some a => exact insertToNode_some (hinv.nodes a (hold a rfl)) hk v

/-- The install of a node that has been built from the content of the bucket. -/
theorem Inv.setBucket (hinv : Inv E bits m) {o : Op K V} {new : Option Nat} {r : Bool}
    (hp : Prepared E o m (m.buckets (getBucket E bits o.key)) new r) :
    Inv E bits (m.setBucket (getBucket E bits o.key) new) ∧
      Effect E bits o r m (m.setBucket (getBucket E bits o.key) new) := by
  have hself : (m.setBucket (getBucket E bits o.key) new).buckets (getBucket E bits o.key) = new :=
    Function.update_self _ _ _
  have hother : ∀ b, b ≠ getBucket E bits o.key →
      (m.setBucket (getBucket E bits o.key) new).buckets b = m.buckets b :=
    fun b hb => Function.update_of_ne hb _ _
  have hvalue : ∀ old k, (m.setBucket (getBucket E bits o.key) new).value E old k = m.value E old k :=
    fun _ _ => rfl
  refine ⟨⟨fun b => ?_, hinv.nodes, fun b k hk => ?_, hinv.freed⟩, hp.applies, fun k => ?_⟩
  · by_cases hb : b = getBucket E bits o.key
    · rw [hb, hself]
      exact hp.built
    · rw [hother b hb]
      exact hinv.buckets b
  · by_cases hb : b = getBucket E bits o.key
    · rw [hb, hself, hvalue, hp.value k] at hk
      rw [hb]
      split at hk
      · rename_i heq
        exact (getBucket_congr heq).symm
      · exact hinv.placed _ k hk
    · rw [hother b hb, hvalue] at hk
      exact hinv.placed b k hk
  · unfold Memory.content
    by_cases hb : getBucket E bits k = getBucket E bits o.key
    · rw [hb, hself, hvalue, hp.value k]
    · rw [hother _ hb, hvalue, if_neg]
      intro heq
      exact hb (getBucket_congr heq).symm

/-! ## The steps of a call -/

/-- What a step of a call at position `p` does: it goes on or returns, and it installs its node or leaves the
map as it is. -/
structure StepOk (E : Keys K) (bits : Nat) (o : Op K V) (m : Memory K V) (p : Pos) (m' : Memory K V)
    (k : Pos ⊕ Bool) : Prop where
  inv : Inv E bits m'
  ext : Ext m m'
  move : ∀ p', k = .inl p' → Known E o m' p' ∧ (p'.done = p.done ∧ (spec E bits).Same m m' ∨
    p.done = none ∧ ∃ r, p'.done = some r ∧ Effect E bits o r m m')
  ret : ∀ r, k = .inr r → (spec E bits).Same m m' ∧
    (p.done = some r ∨ p.done = none ∧ o.Refuses (m'.content E bits o.key) r)

/-- A step that only moves the call. -/
theorem Inv.stay (hinv : Inv E bits m) {o : Op K V} {p p' : Pos} (hp : Known E o m p')
    (hdone : p'.done = p.done) : StepOk E bits o m p m (.inl p') where
  inv := hinv
  ext := Ext.refl m
  move q hq := by
    cases hq
    exact ⟨hp, .inl ⟨hdone, rfl, rfl⟩⟩
  ret r hr := by cases hr

/-- A call changes nothing: it returns, or it validates what it has loaded. -/
theorem Inv.refuse (hinv : Inv E bits m) {o : Op K V}
    (href : o.Refuses (m.content E bits o.key) false) :
    StepOk E bits o m .start m (refuse build (m.buckets (getBucket E bits o.key))) := by
  cases build with
  | useCAS =>
      refine ⟨hinv, Ext.refl m, fun p' hp' => ?_, fun r hr => ?_⟩
      · cases hp'
      · cases hr
        exact ⟨⟨rfl, rfl⟩, .inr ⟨rfl, href⟩⟩
  | tryLock => exact hinv.stay ⟨hinv.buckets _, href⟩ rfl

/-- A call has built its node and goes on to `try_update`. -/
theorem Inv.prepared (hinv : Inv E bits m) {o : Op K V} {n : Node K V} {r : Bool} {old : Option Nat}
    (hn : n.Ok E) (hp : Prepared E o (m.newObj n) old (some m.fresh) r) :
    StepOk E bits o m .start (m.newObj n) (.inl (tryUpdate build old (some m.fresh) r)) := by
  refine ⟨hinv.newObj hn, ext_newObj m n, fun p' hp' => ?_, fun r hr => by cases hr⟩
  cases hp'
  refine ⟨?_, .inl ⟨?_, hinv.same_newObj n⟩⟩
  · cases build with
    | useCAS => exact hp
    | tryLock => exact hp
  · cases build with
    | useCAS => rfl
    | tryLock => rfl

/-- `try_insert_at`, up to the install. -/
theorem Inv.tryInsertAt (hinv : Inv E bits m) (k : K) (v : V) :
    ∃ r, tryInsertAt E build m (m.buckets (getBucket E bits k)) k v = some r ∧
      StepOk E bits (.insert k v) m .start r.1 r.2 := by
  have hold := hinv.buckets (getBucket E bits k)
  unfold HashBlock.tryInsertAt
  rw [hinv.found hold]
  cases hk : m.value E (m.buckets (getBucket E bits k)) k with
  | some w =>
      refine ⟨_, rfl, ?_⟩
      refine hinv.refuse (o := .insert k v) ⟨?_, rfl⟩
      show m.value E (m.buckets (getBucket E bits k)) k ≠ none
      rw [hk]
      exact Option.some_ne_none w
  | none =>
      obtain ⟨n, hn, hok, hlook⟩ := hinv.insertToNode hold hk v
      refine ⟨(m.newObj n, .inl (tryUpdate build (m.buckets (getBucket E bits k)) (some m.fresh) true)),
        ?_, ?_⟩
      · simp [hn]
      · exact hinv.prepared hok (Prepared.newObj hold ⟨hk, rfl⟩ hlook)

/-- `try_upsert_at`, up to the install. -/
theorem Inv.tryUpsertAt (hinv : Inv E bits m) (k : K) (f : Option V → V) :
    ∃ r, tryUpsertAt E build m (m.buckets (getBucket E bits k)) k f = some r ∧
      StepOk E bits (.upsert k f) m .start r.1 r.2 := by
  have hold := hinv.buckets (getBucket E bits k)
  unfold HashBlock.tryUpsertAt
  rw [hinv.found hold]
  cases hk : m.value E (m.buckets (getBucket E bits k)) k with
  | none =>
      obtain ⟨n, hn, hok, hlook⟩ := hinv.insertToNode hold hk (f none)
      refine ⟨(m.newObj n, .inl (tryUpdate build (m.buckets (getBucket E bits k)) (some m.fresh) true)),
        ?_, ?_⟩
      · simp [hn]
      · refine hinv.prepared hok (Prepared.newObj (o := .upsert k f) hold ?_ ?_)
        · show true = (m.value E _ k).isNone
          rw [hk]
          rfl
        · show ∀ k', _ = if E.keyEqual k k' then some (f (m.value E _ k)) else _
          rw [hk]
          exact hlook
  | some w =>
      cases hb : m.buckets (getBucket E bits k) with
      | none =>
          rw [hb] at hk
          cases hk
      | some a =>
          rw [hb] at hk hold
          cases build with
          | useCAS =>
              obtain ⟨n, hn, hok, hlook⟩ := updateNode_spec (hinv.nodes a (hold a rfl)) hk f
              refine ⟨(m.newObj n, .inl (tryUpdate .useCAS (some a) (some m.fresh) false)), ?_, ?_⟩
              · simp [hn]
              · refine hinv.prepared hok (Prepared.newObj (o := .upsert k f) hold ?_ ?_)
                · show false = (m.value E _ k).isNone
                  rw [hk]
                  rfl
                · show ∀ k', _ = if E.keyEqual k k' then some (f (m.value E _ k)) else _
                  rw [hk]
                  exact hlook
          | tryLock =>
              exact ⟨(m, .inl (.update a)), rfl, hinv.stay ⟨hold a rfl, k, f, w, rfl, hk⟩ rfl⟩

/-- `try_remove_at`, up to the install. -/
theorem Inv.tryRemoveAt (hinv : Inv E bits m) (k : K) :
    ∃ r, tryRemoveAt E build m (m.buckets (getBucket E bits k)) k = some r ∧
      StepOk E bits (.remove k) m .start r.1 r.2 := by
  have hold := hinv.buckets (getBucket E bits k)
  unfold HashBlock.tryRemoveAt
  rw [hinv.found hold]
  cases hk : m.value E (m.buckets (getBucket E bits k)) k with
  | none =>
      refine ⟨_, rfl, ?_⟩
      exact hinv.refuse (o := .remove k) ⟨hk, rfl⟩
  | some w =>
      cases hb : m.buckets (getBucket E bits k) with
      | none =>
          rw [hb] at hk
          cases hk
      | some a =>
          rw [hb] at hk hold
          have happ : (Op.remove k : Op K V).Applies (m.value E (some a) k) true := by
            rw [hk]
            exact ⟨Option.some_ne_none w, rfl⟩
          obtain ⟨n, hn, hok, hlook⟩ := removeFromNode_spec (hinv.nodes a (hold a rfl)) hk
          cases n with
          | none =>
              refine ⟨(m, .inl (tryUpdate build (some a) none true)), by simp [hn], ?_⟩
              have hp : Prepared E (.remove k) m (some a) none true :=
                ⟨hold, fun b hb => (by cases hb), happ, hlook⟩
              refine hinv.stay ?_ ?_
              · cases build with
                | useCAS => exact hp
                | tryLock => exact hp
              · cases build with
                | useCAS => rfl
                | tryLock => rfl
          | some n =>
              refine ⟨(m.newObj n, .inl (tryUpdate build (some a) (some m.fresh) true)), by simp [hn], ?_⟩
              exact hinv.prepared (hok n rfl) (Prepared.newObj (o := .remove k) hold happ hlook)

/-- The install of `try_update`. -/
theorem Inv.install (hinv : Inv E bits m) {o : Op K V} {old new : Option Nat} {r : Bool} {p : Pos}
    (hp : Prepared E o m old new r) (hb : m.buckets (getBucket E bits o.key) = old) (hdone : p.done = none) :
    StepOk E bits o m p (m.setBucket (getBucket E bits o.key) new) (.inl (.retire old r)) := by
  rw [← hb] at hp
  obtain ⟨hinv', heff⟩ := hinv.setBucket hp
  refine ⟨hinv', ⟨le_rfl, fun _ _ => rfl⟩, fun p' hp' => ?_, fun r hr => by cases hr⟩
  cases hp'
  refine ⟨?_, .inr ⟨hdone, r, rfl, heff⟩⟩
  rw [← hb]
  exact hp.loaded

/-- Every step of a call is possible and does what it should. -/
theorem Inv.step (build : Build) (hinv : Inv E bits m) {o : Op K V} {p : Pos} (hp : Known E o m p) (x : Bool) :
    ∃ r, step E bits build o m x p = some r ∧ StepOk E bits o m p r.1 r.2 := by
  cases p with
  | start =>
      cases o with
      | insert k v => exact hinv.tryInsertAt k v
      | upsert k f => exact hinv.tryUpsertAt k f
      | remove k => exact hinv.tryRemoveAt k
  | check old new r =>
      refine ⟨_, rfl, hinv.stay ?_ ?_⟩
      · split
        · exact hp
        · exact hp.built
      · split
        · rfl
        · rfl
  | install old new r =>
      simp only [HashBlock.step]
      split
      · rename_i hb
        exact ⟨_, rfl, hinv.install hp hb.2 rfl⟩
      · exact ⟨_, rfl, hinv.stay hp.built rfl⟩
  | update a =>
      obtain ⟨ha, k, f, v, rfl, hv⟩ := hp
      simp only [HashBlock.step]
      split
      · rename_i hb
        obtain ⟨n, hn, hok, hlook⟩ := updateNode_spec (hinv.nodes a ha) hv f
        have hold : m.Allocated (some a) := by
          intro b hb
          cases hb
          exact ha
        refine ⟨((m.newObj n).setBucket (getBucket E bits k) (some m.fresh), .inl (.retire (some a) false)),
          by simp [hn], ?_⟩
        -- The new node is built and installed in one step.
        have hprep : Prepared E (.upsert k f) (m.newObj n) (some a) (some m.fresh) false := by
          refine Prepared.newObj (o := .upsert k f) hold ?_ ?_
          · show false = (m.value E _ k).isNone
            rw [hv]
            rfl
          · show ∀ k', _ = if E.keyEqual k k' then some (f (m.value E _ k)) else _
            rw [hv]
            exact hlook
        have hs := (hinv.newObj hok).install (p := .update a) hprep hb.2 rfl
        have hsame : (m.newObj n).content E bits = m.content E bits := (hinv.same_newObj n).2
        refine ⟨hs.inv, ?_, fun p' hp' => ?_, fun r hr => by cases hr⟩
        · exact ⟨Nat.le_succ _, fun b hlt => (ext_newObj m n).nodes b hlt⟩
        · obtain ⟨hknown, ⟨hd, _⟩ | ⟨hd, r, hr, heff⟩⟩ := hs.move p' hp'
          · cases hp'
            cases hd
          · refine ⟨hknown, .inr ⟨hd, r, hr, ?_, fun k' => ?_⟩⟩
            · rw [← hsame]
              exact heff.applies
            · rw [← hsame]
              exact heff.content k'
      · exact ⟨_, rfl, hinv.stay trivial rfl⟩
  | validate old =>
      simp only [HashBlock.step]
      split
      · rename_i hb
        refine ⟨_, rfl, hinv, Ext.refl m, fun p' hp' => (by cases hp'), fun r hr => ?_⟩
        cases hr
        refine ⟨⟨rfl, rfl⟩, .inr ⟨rfl, ?_⟩⟩
        unfold Memory.content
        rw [hb]
        exact hp.2
      · exact ⟨_, rfl, hinv.stay trivial rfl⟩
  | retire old r =>
      obtain ⟨hinv', hext, hsame⟩ := hinv.free hp fun n hn => hn.retireNode
      refine ⟨_, rfl, hinv', hext, fun p' hp' => (by cases hp'), fun r' hr => ?_⟩
      cases hr
      exact ⟨hsame, .inl rfl⟩
  | destruct new =>
      obtain ⟨hinv', hext, hsame⟩ := hinv.free hp fun n hn => hn.destructNode
      refine ⟨_, rfl, hinv', hext, fun p' hp' => ?_, fun r hr => by cases hr⟩
      cases hp'
      exact ⟨trivial, .inl ⟨rfl, hsame⟩⟩

/-! ## Every run -/

/-- The calls of a table are sound. -/
def sound (E : Keys K) (bits : Nat) (build : Build) :
    Sound (machine (V := V) E bits build) (spec E bits) Initial where
  Inv := Inv E bits
  Ext := Ext
  Known o p m _ := Known E o m p
  done := Pos.done
  initial m hm := by
    refine ⟨fun b a ha => ?_, fun a ha => ?_, fun b k hk => ?_, fun x hx => ?_⟩
    · rw [hm.buckets b] at ha
      cases ha
    · rw [hm.fresh] at ha
      exact absurd ha (Nat.not_lt_zero a)
    · rw [hm.buckets b] at hk
      exact absurd rfl hk
    · rw [hm.freed] at hx
      exact absurd hx List.not_mem_nil
  start _ _ _ _ := trivial
  start_done _ := rfl
  weaken _ _ _ _ _ _ hp := hp
  other _ _ _ _ _ _ _ hext hp := hp.ext hext
  inv o p m x m' k past hinv hp hstep := by
    obtain ⟨r, hr, hok⟩ := hinv.step build hp x
    cases hr.symm.trans hstep
    exact ⟨hok.inv, hok.ext⟩
  move o p m x m' p' past hinv hp hstep := by
    obtain ⟨r, hr, hok⟩ := hinv.step build hp x
    cases hr.symm.trans hstep
    exact hok.move p' rfl
  ret o p m x m' r past hinv hp hstep := by
    obtain ⟨r', hr', hok⟩ := hinv.step build hp x
    cases hr'.symm.trans hstep
    obtain ⟨hsame, hd | ⟨hd, href⟩⟩ := hok.ret r rfl
    · exact .inl ⟨hd, hsame⟩
    · exact .inr ⟨hd, .inr ⟨hsame, m', .inr rfl, href⟩⟩

/-- In every run, and with both builds, each bucket holds every key at most once, and only keys that belong to
it; a call that installs a node changes the map in that step, for its own key, and returns whether the key was
new or present; every node holds at least one entry and no more than its kind has room for; every node is
retired or destructed through the pool that it was allocated from; and no call is ever stuck. -/
theorem updates_linearizable {ι : Type} [DecidableEq ι] {h : List (Machine.Event (Op K V) (Memory K V) Bool)}
    {st : Machine.State ι (Op K V) (Memory K V) Pos}
    (hexec : Exec ((machine E bits build).system Initial) h st) :
    (∀ b a, st.memory.buckets b = some a → Distinct E (st.memory.nodes a).entries ∧
      ∀ e ∈ (st.memory.nodes a).entries, getBucket E bits e.key = b) ∧
    Linear (spec E bits) h ∧
    (∀ a, a < st.memory.fresh → 1 ≤ (st.memory.nodes a).entries.length ∧
      ∀ s, (st.memory.nodes a).pool.size = some s → (st.memory.nodes a).entries.length ≤ s) ∧
    (∀ a pool, (a, pool) ∈ st.memory.freed → pool = (st.memory.nodes a).pool) ∧
    ∀ c t, st.threads c = some t → ∀ x, (step E bits build t.2.1 st.memory x t.2.2).isSome = true := by
  have hrun := (sound (V := V) E bits build).runInv hexec
  have hinv : Inv E bits st.memory := hrun.mem
  refine ⟨fun b a ha => ?_, ((sound E bits build).linear hexec).2, fun a ha => ?_, fun a pool hmem => ?_,
    fun c t ht x => ?_⟩
  · have hok := hinv.nodes a (hinv.buckets b a ha)
    refine ⟨hok.distinct, fun e he => hinv.placed b e.key ?_⟩
    rw [ha]
    intro hnone
    have hne := lookup_eq_none_iff.mp hnone e he
    rw [E.refl] at hne
    cases hne
  · have hok := hinv.nodes a ha
    refine ⟨?_, hok.fits⟩
    rw [hok.length]
    exact hok.pos
  · exact (hinv.freed _ hmem).2
  · obtain ⟨r, hr, _⟩ := hinv.step build (hrun.active c t ht).known x
    rw [hr]
    rfl

/-- Numbers as keys. -/
def natKeys : Keys Nat where
  keyEqual k k' := k == k'
  hash k := k
  refl k := beq_self_eq_true k
  symm k k' h := by rw [eq_of_beq h, beq_self_eq_true]
  trans k k' k'' h h' := by rw [eq_of_beq h, eq_of_beq h', beq_self_eq_true]
  hash_eq k k' h := eq_of_beq h

/-- A run: both calls load the empty bucket. The second one finds that its install has come too late, destructs
its node, and builds another one from the node of the first, which is then retired. -/
theorem updates_linearizable_run :
    ∃ (h : List (Machine.Event (Op Nat Nat) (Memory Nat Nat) Bool))
      (st : Machine.State Bool (Op Nat Nat) (Memory Nat Nat) Pos),
      Exec ((machine natKeys 0 .useCAS).system Initial) h st ∧ st.memory.buckets 0 = some 2 ∧
        (st.memory.nodes 2).entries = [⟨5, 50⟩, ⟨7, 70⟩] ∧ st.memory.freed = [(1, .node1), (0, .node1)] ∧
        (st.memory.nodes 1).pool = .node1 ∧ Linear (spec natKeys 0) h := by
  obtain ⟨h, st, hexec, hbucket, hentries, hfreed⟩ :
      ∃ (h : List (Machine.Event (Op Nat Nat) (Memory Nat Nat) Bool))
        (st : Machine.State Bool (Op Nat Nat) (Memory Nat Nat) Pos),
        Exec ((machine natKeys 0 .useCAS).system Initial) h st ∧ (st.memory.buckets 0 = some 2 ∧
          (st.memory.nodes 2).entries = [⟨5, 50⟩, ⟨7, 70⟩] ∧ st.memory.freed = [(1, .node1), (0, .node1)]) :=
    exists_exec_of_run _ (s := ⟨⟨fun _ => ⟨.node1, 1, []⟩, 0, fun _ => none, []⟩, fun _ => none, 0⟩)
      (List.flatten [[.call false (.insert 5 50), .call true (.insert 7 70), .step true true],
        List.replicate 4 (.step false true), List.replicate 6 (.step true true)])
      ⟨⟨fun _ => rfl, rfl, rfl⟩, fun _ => rfl, rfl⟩ (by decide +kernel)
  obtain ⟨_, hlinear, _, hpools, _⟩ := updates_linearizable hexec
  refine ⟨h, st, hexec, hbucket, hentries, hfreed, (hpools 1 .node1 ?_).symm, hlinear⟩
  rw [hfreed]
  exact List.mem_cons_self

end Verlib.HashBlock
