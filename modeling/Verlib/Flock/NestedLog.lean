import Verlib.Flock.Nested

/-!
# Paths, lock words and logs of nested try-locks

The executions of a descriptor's thunk agree on their path: `At h sh d i t` says that the log of `d`
leads to the rest `t` after `i` operations, and it is a function of `d` and `i`. The invariant of the
shared memory says when a descriptor may still be stored into its lock and what the entries of a log
mean, and every step extends the shared memory in a way that keeps paths and outcomes.
-/

namespace Verlib.Flock.Nested

open Interleaving
open LockWord (Entry firstCounter)

variable {Λ κ : Type} {h h' : List Event} {sh sh' : Shared Λ}

/-! ## Lock words -/

/-- Descriptor `d` has been stored into its lock. -/
def Stored (h : List Event) (d : Nat) : Prop :=
  .stored d ∈ h

/-- The count of a lock: its own when it is free, that of its holder when it is taken. -/
def Shared.clock (sh : Shared Λ) (l : Λ) : Nat :=
  match sh.lck l with
  | .unlocked c => c
  | .locked d => (sh.descs d).counter.count

/-- The word of lock `l` will not be the count `x` any more. -/
def Shared.Dead (sh : Shared Λ) (l : Λ) (x : Nat) : Prop :=
  x < sh.clock l ∨ x = sh.clock l ∧ ∃ d, sh.lck l = .locked d

/-- The count at which descriptor `d` would be stored is gone. -/
def Shared.Missed (sh : Shared Λ) (d : Nat) : Prop :=
  ∀ x, (sh.descs d).counter = .unlocked x → sh.Dead (sh.descs d).lock x

/-- Descriptor `d` has not been stored and will not be. -/
def Lost (h : List Event) (sh : Shared Λ) (d : Nat) : Prop :=
  ¬ Stored h d ∧ sh.Missed d

/-! ## The path of a thunk -/

/-- `At h sh d i t` says that after `i` operations the thunk of `d`, run with its log, goes on as `t`.
A nested call leads on with the result of its thunk if its descriptor has been stored, and with no
result if it is lost. -/
inductive At (h : List Event) (sh : Shared Λ) : Nat → Nat → Thunk Λ → Prop where
  | start {d : Nat} : d < sh.fresh → At h sh d 0 (sh.descs d).thunk
  | retire {d i p : Nat} {k : Thunk Λ} : At h sh d i (.retire p k) → At h sh d (i + 1) k
  | commit {d i v : Nat} {k : Nat → Thunk Λ} :
      At h sh d i (.commit k) → (sh.slots d i).value = some v → At h sh d (i + 1) (k v)
  | inline {d i : Nat} {l : Λ} {body : Thunk Λ} {k : Option Nat → Thunk Λ} {w : Entry} :
      At h sh d i (.tryLock l body k) → (sh.slots d i).current = some w →
      sh.lockIsSelf (sh.descs d).threadId w = true →
      At h sh d (i + 1) (body.bind fun r => k (some r))
  | won {d i e n r : Nat} {l : Λ} {body : Thunk Λ} {k : Option Nat → Thunk Λ} {w : Entry} :
      At h sh d i (.tryLock l body k) → (sh.slots d i).current = some w →
      sh.lockIsSelf (sh.descs d).threadId w = false → (sh.slots d i).desc = some e →
      Stored h e → At h sh e n (.ret r) → At h sh d (i + 1) (k (some r))
  | lost {d i e : Nat} {l : Λ} {body : Thunk Λ} {k : Option Nat → Thunk Λ} {w : Entry} :
      At h sh d i (.tryLock l body k) → (sh.slots d i).current = some w →
      sh.lockIsSelf (sh.descs d).threadId w = false → (sh.slots d i).desc = some e →
      Lost h sh e → At h sh d (i + 1) (k none)

/-- A thunk that has ended. -/
def Thunk.IsRet : Thunk Λ → Prop
  | .ret _ => True
  | _ => False

/-- The path before a point of it exists and has not ended. -/
theorem At.before {d i j : Nat} {t : Thunk Λ} (ht : At h sh d i t) (hj : j < i) :
    ∃ s, At h sh d j s ∧ ¬ s.IsRet := by
  induction ht with
  | start _ => omega
  | retire hprev ih | commit hprev _ ih | inline hprev _ _ ih | lost hprev _ _ _ _ ih =>
      rcases Nat.lt_or_eq_of_le (Nat.le_of_lt_succ hj) with hlt | rfl
      · exact ih hlt
      · exact ⟨_, hprev, id⟩
  | won hprev _ _ _ _ _ ih _ =>
      rcases Nat.lt_or_eq_of_le (Nat.le_of_lt_succ hj) with hlt | rfl
      · exact ih hlt
      · exact ⟨_, hprev, id⟩

/-- Everything up to a point of a path is determined. -/
def Settled (h : List Event) (sh : Shared Λ) (d i : Nat) (t : Thunk Λ) : Prop :=
  ∀ j ≤ i, ∃ s, (j = i → s = t) ∧ (j < i → ¬ s.IsRet) ∧ ∀ s', At h sh d j s' → s' = s

/-- Two ends of one path are the same. -/
theorem Settled.end_eq {e n n' r r' : Nat} (hset : Settled h sh e n (.ret r))
    (hother : At h sh e n' (.ret r')) : r' = r := by
  rcases Nat.lt_trichotomy n' n with hlt | rfl | hgt
  · obtain ⟨s, _, hs, hu⟩ := hset n' hlt.le
    have heq := hu _ hother
    exact absurd (by rw [← heq]; trivial) (hs hlt)
  · obtain ⟨s, hs, _, hu⟩ := hset n' le_rfl
    have heq := hu _ hother
    rw [hs rfl] at heq
    cases heq
    rfl
  · obtain ⟨s, hs, hne⟩ := hother.before hgt
    obtain ⟨u, hu, _, huniq⟩ := hset n le_rfl
    rw [huniq s hs, hu rfl] at hne
    exact absurd trivial hne

/-- A path that is settled up to an operation is settled up to the next one if that one is
determined. -/
theorem Settled.succ {d i : Nat} {t t' : Thunk Λ} (hset : Settled h sh d i t) (ht : ¬ t.IsRet)
    (huniq : ∀ s', At h sh d (i + 1) s' → s' = t') : Settled h sh d (i + 1) t' := by
  intro j hj
  rcases Nat.lt_or_eq_of_le hj with hlt | rfl
  · obtain ⟨s, hs, hne, hu⟩ := hset j (Nat.le_of_lt_succ hlt)
    refine ⟨s, fun habs => by omega, fun _ => ?_, hu⟩
    rcases Nat.lt_or_eq_of_le (Nat.le_of_lt_succ hlt) with hlt' | rfl
    · exact hne hlt'
    · rw [hs rfl]
      exact ht
  · exact ⟨t', fun _ => rfl, fun habs => absurd habs (Nat.lt_irrefl _), huniq⟩

/-- A path is settled at a point if every rest there is the same. -/
theorem Settled.eq {d i : Nat} {t s : Thunk Λ} (hset : Settled h sh d i t) (hs : At h sh d i s) :
    s = t := by
  obtain ⟨u, hu, _, huniq⟩ := hset i le_rfl
  rw [huniq s hs, hu rfl]

/-- Paths are settled: by induction on the path, comparing with any other step to the same point. -/
theorem At.settled {d i : Nat} {t : Thunk Λ} (ht : At h sh d i t) : Settled h sh d i t := by
  induction ht with
  | @start d hd =>
      intro j hj
      obtain rfl : j = 0 := by omega
      refine ⟨_, fun _ => rfl, fun habs => by omega, ?_⟩
      intro s hs
      cases hs
      rfl
  | retire hprev ih =>
      refine ih.succ id ?_
      intro s hs
      cases hs with
      | retire hp => cases ih.eq hp; rfl
      | commit hp | inline hp | won hp | lost hp => cases ih.eq hp
  | commit hprev hv ih =>
      refine ih.succ id ?_
      intro s hs
      cases hs with
      | commit hp hv' =>
          cases ih.eq hp
          rw [hv] at hv'
          cases hv'
          rfl
      | retire hp | inline hp | won hp | lost hp => cases ih.eq hp
  | inline hprev hw hself ih =>
      refine ih.succ id ?_
      intro s hs
      cases hs with
      | inline hp => cases ih.eq hp; rfl
      | won hp hw' hself' | lost hp hw' hself' =>
          rw [hw] at hw'
          cases hw'
          rw [hself] at hself'
          cases hself'
      | retire hp | commit hp => cases ih.eq hp
  | won hprev hw hself he hst _ ih ihe =>
      refine ih.succ id ?_
      intro s hs
      cases hs with
      | won hp _ _ he' _ hr' =>
          cases ih.eq hp
          rw [he] at he'
          cases he'
          rw [ihe.end_eq hr']
      | lost hp _ _ he' hlost =>
          rw [he] at he'
          cases he'
          exact absurd hst hlost.1
      | inline hp hw' hself' =>
          rw [hw] at hw'
          cases hw'
          rw [hself] at hself'
          cases hself'
      | retire hp | commit hp => cases ih.eq hp
  | lost hprev hw hself he hlost ih =>
      refine ih.succ id ?_
      intro s hs
      cases hs with
      | lost hp => cases ih.eq hp; rfl
      | won hp _ _ he' hst =>
          rw [he] at he'
          cases he'
          exact absurd hst hlost.1
      | inline hp hw' hself' =>
          rw [hw] at hw'
          cases hw'
          rw [hself] at hself'
          cases hself'
      | retire hp | commit hp => cases ih.eq hp

/-- The rest of a thunk at a point of its path is determined. -/
theorem At.unique {d i : Nat} {t s : Thunk Λ} (ht : At h sh d i t) (hs : At h sh d i s) : s = t :=
  ht.settled.eq hs

/-- A point of the path where the thunk has not ended lies before its end. -/
theorem At.lt_end {d i n r : Nat} {t : Thunk Λ} (ht : At h sh d i t) (hne : ¬ t.IsRet)
    (hend : At h sh d n (.ret r)) : i < n := by
  rcases Nat.lt_trichotomy i n with hlt | rfl | hgt
  · exact hlt
  · rw [hend.unique ht] at hne
    exact absurd trivial hne
  · obtain ⟨s, hs, hs'⟩ := ht.before hgt
    rw [hend.unique hs] at hs'
    exact absurd trivial hs'

/-- How a nested call leads on. -/
theorem At.call_cases {d i : Nat} {l : Λ} {body t : Thunk Λ} {k : Option Nat → Thunk Λ}
    (hcall : At h sh d i (.tryLock l body k)) (hnext : At h sh d (i + 1) t) :
    ∃ w, (sh.slots d i).current = some w ∧
      (sh.lockIsSelf (sh.descs d).threadId w = true ∨
        sh.lockIsSelf (sh.descs d).threadId w = false ∧
          ∃ e, (sh.slots d i).desc = some e ∧ (Stored h e ∨ Lost h sh e)) := by
  cases hnext with
  | retire hp | commit hp => cases hcall.unique hp
  | inline hp hw hself => exact ⟨_, hw, .inl hself⟩
  | won hp hw hself he hst => exact ⟨_, hw, .inr ⟨hself, _, he, .inl hst⟩⟩
  | lost hp hw hself he hlost => exact ⟨_, hw, .inr ⟨hself, _, he, .inr hlost⟩⟩

/-- Only allocated descriptors have a path. -/
theorem At.lt_fresh {d i : Nat} {t : Thunk Λ} (ht : At h sh d i t) : d < sh.fresh := by
  induction ht with
  | start hd => exact hd
  | retire _ ih | commit _ _ ih | inline _ _ _ ih | lost _ _ _ _ _ ih => exact ih
  | won _ _ _ _ _ _ ih _ => exact ih

/-! ## The invariant of the shared memory -/

/-- What is known of a word loaded from lock `l`. -/
structure Seen (sh : Shared Λ) (l : Λ) (w : Entry) : Prop where
  le : ∀ x, w = .unlocked x → x ≤ sh.clock l
  lt : ∀ e, w = .locked e → e < sh.fresh

/-- The outcome of a call on descriptor `e` is settled. -/
def Outcome (h : List Event) (sh : Shared Λ) (e : Nat) : Option Nat → Prop
  | some r => Stored h e ∧ ∃ n, At h sh e n (.ret r)
  | none => Lost h sh e

/-- Descriptor `e` was made by the call that is operation `i` of the thunk of `d`. -/
structure Child (h : List Event) (sh : Shared Λ) (d i e : Nat) : Prop where
  lt : d < e
  fresh : e < sh.fresh
  stored : Stored h d
  root : (sh.descs e).root = (sh.descs d).root
  threadId : (sh.descs e).threadId = (sh.descs d).threadId
  call : ∃ k, At h sh d i (.tryLock (sh.descs e).lock (sh.descs e).thunk k)
  aim : ∃ w, (sh.slots d i).current = some w ∧
    sh.lockIsSelf (sh.descs d).threadId w = false ∧ (sh.descs e).counter = firstCounter w

/-- The invariant of the lock words and descriptors. -/
structure WordInv (h : List Event) (sh : Shared Λ) : Prop where
  fresh : 0 < sh.fresh
  installed : ∀ l d, sh.lck l = .locked d →
    Stored h d ∧ (sh.descs d).lock = l ∧ ∃ c, (sh.descs d).counter = .unlocked c
  stored : ∀ d, Stored h d → d < sh.fresh ∧
    (sh.lck (sh.descs d).lock = .locked d ∨ (sh.descs d).done) ∧
    (∃ x, (sh.descs d).counter = .unlocked x) ∧ sh.Missed d
  done : ∀ d, d < sh.fresh → (sh.descs d).done → Stored h d
  aim : ∀ d x, d < sh.fresh → (sh.descs d).counter = .unlocked x →
    x ≤ sh.clock (sh.descs d).lock

/-- The invariant of the logs. -/
structure LogInv (h : List Event) (sh : Shared Λ) : Prop where
  child : ∀ d i e, (sh.slots d i).desc = some e → Child h sh d i e
  parent : ∀ d i d' i' e, (sh.slots d i).desc = some e → (sh.slots d' i').desc = some e →
    d = d' ∧ i = i'
  result : ∀ d i res, (sh.slots d i).result = some res →
    ∃ e, (sh.slots d i).desc = some e ∧ Outcome h sh e res
  load : ∀ d i w, (sh.slots d i).current = some w →
    ∃ l body k, At h sh d i (.tryLock l body k) ∧ Seen sh l w
  root : ∀ d, d < sh.fresh → (sh.descs d).root ≤ d ∧
    ((sh.descs d).root = d ∨ ∃ d' i, (sh.slots d' i).desc = some d)

/-- The invariant of the shared memory. -/
structure SharedInv (h : List Event) (sh : Shared Λ) : Prop extends WordInv h sh, LogInv h sh

/-- How a step may change the shared memory. -/
structure Ext (h : List Event) (sh : Shared Λ) (h' : List Event) (sh' : Shared Λ) : Prop where
  hist : ∀ e ∈ h, e ∈ h'
  fresh : sh.fresh ≤ sh'.fresh
  descs : ∀ d, d < sh.fresh →
    ∃ b, sh'.descs d = { sh.descs d with done := b } ∧ ((sh.descs d).done → b)
  clock : ∀ l, sh.clock l ≤ sh'.clock l
  dead : ∀ l x, sh.Dead l x → sh'.Dead l x
  value : ∀ d i v, (sh.slots d i).value = some v → (sh'.slots d i).value = some v
  current : ∀ d i w, (sh.slots d i).current = some w → (sh'.slots d i).current = some w
  desc : ∀ d i e, (sh.slots d i).desc = some e → (sh'.slots d i).desc = some e
  store : ∀ d, Stored h' d → Stored h d ∨ d < sh.fresh ∧ ¬ sh.Missed d

section Transport

variable (hext : Ext h sh h' sh')
include hext

/-- A stored descriptor stays stored. -/
theorem Ext.stored {d : Nat} (hd : Stored h d) : Stored h' d :=
  hext.hist _ hd

/-- What a step leaves alone in a descriptor: everything but `done`. -/
theorem Ext.desc_eq {d : Nat} (hd : d < sh.fresh) :
    (sh'.descs d).lock = (sh.descs d).lock ∧ (sh'.descs d).root = (sh.descs d).root ∧
      (sh'.descs d).thunk = (sh.descs d).thunk ∧ (sh'.descs d).counter = (sh.descs d).counter ∧
      (sh'.descs d).threadId = (sh.descs d).threadId ∧
      ((sh.descs d).done → (sh'.descs d).done) := by
  obtain ⟨b, heq, hb⟩ := hext.descs d hd
  rw [heq]
  exact ⟨rfl, rfl, rfl, rfl, rfl, hb⟩

/-- A missed count stays missed. -/
theorem Ext.missed {d : Nat} (hd : d < sh.fresh) (hm : sh.Missed d) : sh'.Missed d := by
  obtain ⟨hlock, _, _, hcounter, _⟩ := hext.desc_eq hd
  intro x hx
  rw [hcounter] at hx
  rw [hlock]
  exact hext.dead _ _ (hm x hx)

/-- A missed descriptor is stored by no step. -/
theorem Ext.stored_of_missed {d : Nat} (hm : sh.Missed d) (hd : Stored h' d) : Stored h d := by
  rcases hext.store d hd with hold | ⟨_, hne⟩
  · exact hold
  · exact absurd hm hne

/-- A lost descriptor stays lost. -/
theorem Ext.lost {d : Nat} (hd : d < sh.fresh) (hl : Lost h sh d) : Lost h' sh' d :=
  ⟨fun hs => hl.1 (hext.stored_of_missed hl.2 hs), hext.missed hd hl.2⟩

/-- What is known of a loaded word stays known. -/
theorem Ext.seen {l : Λ} {w : Entry} (hw : Seen sh l w) : Seen sh' l w :=
  ⟨fun x hx => (hw.le x hx).trans (hext.clock l), fun e he => (hw.lt e he).trans_le hext.fresh⟩

/-- Whether a loaded word shows the own thread does not change. -/
theorem Ext.lockIsSelf {l : Λ} {w : Entry} (hw : Seen sh l w) (t : Nat) :
    sh'.lockIsSelf t w = sh.lockIsSelf t w := by
  cases w with
  | unlocked x => rfl
  | locked e =>
      obtain ⟨_, _, _, _, htid, _⟩ := hext.desc_eq (hw.lt e rfl)
      simp [Shared.lockIsSelf, htid]

/-- Paths stay. -/
theorem Ext.at (hinv : LogInv h sh) {d i : Nat} {t : Thunk Λ} (ht : At h sh d i t) :
    At h' sh' d i t := by
  have htid : ∀ {d i t}, At h sh d i t → (sh'.descs d).threadId = (sh.descs d).threadId :=
    fun ht => (hext.desc_eq ht.lt_fresh).2.2.2.2.1
  induction ht with
  | @start d hd =>
      rw [← (hext.desc_eq hd).2.2.1]
      exact .start (hd.trans_le hext.fresh)
  | retire _ ih => exact .retire ih
  | commit _ hv ih => exact .commit ih (hext.value _ _ _ hv)
  | inline hprev hw hself ih =>
      obtain ⟨l, _, _, _, hseen⟩ := hinv.load _ _ _ hw
      refine .inline ih (hext.current _ _ _ hw) ?_
      rw [htid hprev, hext.lockIsSelf hseen]
      exact hself
  | won hprev hw hself he hst _ ih ihe =>
      obtain ⟨l, _, _, _, hseen⟩ := hinv.load _ _ _ hw
      refine .won ih (hext.current _ _ _ hw) ?_ (hext.desc _ _ _ he) (hext.stored hst) ihe
      rw [htid hprev, hext.lockIsSelf hseen]
      exact hself
  | lost hprev hw hself he hlost ih =>
      obtain ⟨l, _, _, _, hseen⟩ := hinv.load _ _ _ hw
      refine .lost ih (hext.current _ _ _ hw) ?_ (hext.desc _ _ _ he)
        (hext.lost (hinv.child _ _ _ he).fresh hlost)
      rw [htid hprev, hext.lockIsSelf hseen]
      exact hself

/-- A settled outcome stays settled. -/
theorem Ext.outcome (hinv : LogInv h sh) {e : Nat} {res : Option Nat} (he : e < sh.fresh)
    (ho : Outcome h sh e res) : Outcome h' sh' e res := by
  cases res with
  | none => exact hext.lost he ho
  | some r =>
      obtain ⟨hst, n, hn⟩ := ho
      exact ⟨hext.stored hst, n, hext.at hinv hn⟩

/-- A nested descriptor stays one. -/
theorem Ext.child (hinv : LogInv h sh) {d i e : Nat} (hc : Child h sh d i e) :
    Child h' sh' d i e := by
  obtain ⟨k, hk⟩ := hc.call
  obtain ⟨w, hw, hself, hcount⟩ := hc.aim
  obtain ⟨hlock, hroot, hthunk, hcounter, htid, _⟩ := hext.desc_eq hc.fresh
  obtain ⟨_, hroot', _, _, htid', _⟩ := hext.desc_eq hk.lt_fresh
  obtain ⟨l, _, _, _, hseen⟩ := hinv.load _ _ _ hw
  refine ⟨hc.lt, hc.fresh.trans_le hext.fresh, hext.stored hc.stored, ?_, ?_, ⟨k, ?_⟩,
    w, hext.current _ _ _ hw, ?_, ?_⟩
  · rw [hroot, hroot', hc.root]
  · rw [htid, htid', hc.threadId]
  · rw [hlock, hthunk]
    exact hext.at hinv hk
  · rw [htid', hext.lockIsSelf hseen]
    exact hself
  · rw [hcounter, hcount]

end Transport

/-! ## The steps that change the shared memory -/

/-- A step that emits `es` extends the shared memory and keeps its invariant. -/
def Evolves (h : List Event) (sh : Shared Λ) (es : List Event) (sh' : Shared Λ) : Prop :=
  Ext h sh (h ++ es) sh' ∧ SharedInv (h ++ es) sh'

/-- The invariant of the logs survives an extension that leaves the logs and the descriptors'
number alone. -/
theorem Ext.logInv (hext : Ext h sh h' sh') (hinv : LogInv h sh) (hslots : sh'.slots = sh.slots)
    (hfresh : sh'.fresh = sh.fresh) : LogInv h' sh' where
  child d i e he := by
    rw [hslots] at he
    exact hext.child hinv (hinv.child d i e he)
  parent := by
    rw [hslots]
    exact hinv.parent
  result d i res hr := by
    rw [hslots] at hr ⊢
    obtain ⟨e, he, ho⟩ := hinv.result d i res hr
    exact ⟨e, he, hext.outcome hinv (hinv.child d i e he).fresh ho⟩
  load d i w hw := by
    rw [hslots] at hw
    obtain ⟨l, body, k, hk, hseen⟩ := hinv.load d i w hw
    exact ⟨l, body, k, hext.at hinv hk, hext.seen hseen⟩
  root d hd := by
    rw [hfresh] at hd
    rw [(hext.desc_eq hd).2.1, hslots]
    exact hinv.root d hd

/-- A step that only emits events. -/
theorem SharedInv.events (hinv : SharedInv h sh) {es : List Event}
    (hes : ∀ d, .stored d ∉ es) : Evolves h sh es sh := by
  have hstored : ∀ d, Stored (h ++ es) d ↔ Stored h d := by
    intro d
    refine ⟨fun hd => ?_, List.mem_append_left _⟩
    rcases List.mem_append.mp hd with hd | hd
    · exact hd
    · exact absurd hd (hes d)
  have hext : Ext h sh (h ++ es) sh :=
    ⟨fun _ he => List.mem_append_left _ he, le_rfl, fun d _ => ⟨_, rfl, id⟩, fun _ => le_rfl,
      fun _ _ hd => hd, fun _ _ _ hv => hv, fun _ _ _ hw => hw, fun _ _ _ he => he,
      fun d hd => .inl ((hstored d).mp hd)⟩
  refine ⟨hext, ⟨hinv.fresh, ?_, ?_, ?_, hinv.aim⟩, hext.logInv hinv.toLogInv rfl rfl⟩
  · simpa only [hstored] using hinv.installed
  · simpa only [hstored] using hinv.stored
  · simpa only [hstored] using hinv.done

/-- A slot of a log other than the one that is written. -/
theorem setSlot_slots (sh : Shared Λ) (d i d' i' : Nat) (s : Slot) :
    (sh.setSlot d i s).slots d' i' = if d' = d ∧ i' = i then s else sh.slots d' i' := by
  by_cases hd : d' = d
  · subst hd
    by_cases hi : i' = i <;> simp [Shared.setSlot, hi]
  · simp [Shared.setSlot, hd]

/-- Committing a value, a load or a result to a log. -/
theorem SharedInv.setSlot (hinv : SharedInv h sh) {d i : Nat} {s : Slot}
    (hvalue : ∀ v, (sh.slots d i).value = some v → s.value = some v)
    (hcurrent : ∀ w, (sh.slots d i).current = some w → s.current = some w)
    (hdesc : s.desc = (sh.slots d i).desc)
    (hload : ∀ w, s.current = some w → (sh.slots d i).current = some w ∨
      ∃ l body k, At h sh d i (.tryLock l body k) ∧ Seen sh l w)
    (hresult : ∀ res, s.result = some res → (sh.slots d i).result = some res ∨
      ∃ e, (sh.slots d i).desc = some e ∧ Outcome h sh e res) :
    Evolves h sh [] (sh.setSlot d i s) := by
  have hslot := setSlot_slots sh d i (s := s)
  have hdescs : ∀ d' i', ((sh.setSlot d i s).slots d' i').desc = (sh.slots d' i').desc := by
    intro d' i'
    rw [hslot]
    split
    · rename_i heq
      rw [heq.1, heq.2, hdesc]
    · rfl
  have hext : Ext h sh h (sh.setSlot d i s) := by
    refine ⟨fun _ he => he, le_rfl, fun d _ => ⟨_, rfl, id⟩, fun _ => le_rfl, fun _ _ hd => hd,
      ?_, ?_, fun d' i' e he => (hdescs d' i').trans he, fun d hd => .inl hd⟩
    · intro d' i' v hv
      rw [hslot]
      split
      · rename_i heq
        rw [heq.1, heq.2] at hv
        exact hvalue v hv
      · exact hv
    · intro d' i' w hw
      rw [hslot]
      split
      · rename_i heq
        rw [heq.1, heq.2] at hw
        exact hcurrent w hw
      · exact hw
  rw [Evolves, List.append_nil]
  refine ⟨hext, ⟨hinv.fresh, hinv.installed, hinv.stored, hinv.done, hinv.aim⟩, ⟨?_, ?_, ?_, ?_, ?_⟩⟩
  · intro d' i' e he
    rw [hdescs] at he
    exact hext.child hinv.toLogInv (hinv.child d' i' e he)
  · intro d₁ i₁ d₂ i₂ e h₁ h₂
    rw [hdescs] at h₁ h₂
    exact hinv.parent d₁ i₁ d₂ i₂ e h₁ h₂
  · intro d' i' res hr
    rw [hdescs]
    have hold : ∃ e, (sh.slots d' i').desc = some e ∧ Outcome h sh e res := by
      rw [hslot] at hr
      split at hr
      · rename_i heq
        rw [heq.1, heq.2]
        rcases hresult res hr with hr | hr
        · exact hinv.result d i res hr
        · exact hr
      · exact hinv.result d' i' res hr
    obtain ⟨e, he, ho⟩ := hold
    exact ⟨e, he, hext.outcome hinv.toLogInv (hinv.child d' i' e he).fresh ho⟩
  · intro d' i' w hw
    have hold : ∃ l body k, At h sh d' i' (.tryLock l body k) ∧ Seen sh l w := by
      rw [hslot] at hw
      split at hw
      · rename_i heq
        rw [heq.1, heq.2]
        rcases hload w hw with hw | hw
        · exact hinv.load d i w hw
        · exact hw
      · exact hinv.load d' i' w hw
    obtain ⟨l, body, k, hk, hseen⟩ := hold
    exact ⟨l, body, k, hext.at hinv.toLogInv hk, hext.seen hseen⟩
  · intro d' hd'
    obtain ⟨hle, hor⟩ := hinv.root d' hd'
    refine ⟨hle, hor.imp_right ?_⟩
    rintro ⟨a, j, hj⟩
    exact ⟨a, j, (hdescs a j).trans hj⟩

/-- A count is dead once it is not ahead of the lock and not its word. -/
theorem Shared.Dead.of_ne {l : Λ} {x : Nat} (hx : x ≤ sh.clock l) (hne : sh.lck l ≠ .unlocked x) :
    sh.Dead l x := by
  cases hlck : sh.lck l with
  | locked d =>
      rcases Nat.lt_or_eq_of_le hx with hlt | heq
      · exact .inl hlt
      · exact .inr ⟨heq, d, hlck⟩
  | unlocked c =>
      simp only [Shared.clock, hlck] at hx
      have hc : x ≠ c := by
        rintro rfl
        exact hne hlck
      exact .inl (by simp only [Shared.clock, hlck]; omega)

/-- The word of a lock is not a dead count. -/
theorem Shared.Dead.ne_lck {l : Λ} {x : Nat} (hx : sh.Dead l x) : sh.lck l ≠ .unlocked x := by
  intro hlck
  rcases hx with hlt | ⟨_, d, hd⟩
  · simp [Shared.clock, hlck] at hlt
  · simp [hlck] at hd

/-- Marking a stored descriptor as done. -/
theorem SharedInv.setDone (hinv : SharedInv h sh) {d : Nat} (hd : Stored h d) :
    Evolves h sh [] (sh.setDone d) := by
  have hdesc : ∀ e, (sh.setDone d).descs e =
      { sh.descs e with done := if e = d then true else (sh.descs e).done } := by
    intro e
    by_cases he : e = d
    · subst he
      simp [Shared.setDone]
    · simp [Shared.setDone, he]
  have hclock : ∀ l, (sh.setDone d).clock l = sh.clock l := by
    intro l
    unfold Shared.clock
    show (match sh.lck l with | .unlocked c => c | .locked e => _) = _
    cases sh.lck l with
    | unlocked c => rfl
    | locked e => simp [hdesc]
  have hdead : ∀ l x, (sh.setDone d).Dead l x ↔ sh.Dead l x := by
    intro l x
    unfold Shared.Dead
    rw [hclock]
    rfl
  have hmissed : ∀ e, (sh.setDone d).Missed e ↔ sh.Missed e := by
    intro e
    simp only [Shared.Missed, hdesc, hdead]
  have hext : Ext h sh h (sh.setDone d) := by
    refine ⟨fun _ he => he, le_rfl, fun e _ => ⟨_, hdesc e, ?_⟩, fun l => (hclock l).ge,
      fun l x hx => (hdead l x).mpr hx, fun _ _ _ hv => hv, fun _ _ _ hw => hw, fun _ _ _ he => he,
      fun e he => .inl he⟩
    intro he
    split
    · rfl
    · exact he
  rw [Evolves, List.append_nil]
  refine ⟨hext, ⟨hinv.fresh, ?_, ?_, ?_, ?_⟩, hext.logInv hinv.toLogInv rfl rfl⟩
  · intro l e hl
    simp only [hdesc]
    exact hinv.installed l e hl
  · intro e he
    obtain ⟨hlt, hor, hx, hm⟩ := hinv.stored e he
    simp only [hdesc, hmissed]
    refine ⟨hlt, ?_, hx, hm⟩
    by_cases hed : e = d
    · simp [hed]
    · rw [if_neg hed]
      exact hor
  · intro e hlt he
    by_cases hed : e = d
    · exact hed ▸ hd
    · simp only [hdesc, hed, if_false] at he
      exact hinv.done e hlt he
  · intro e x hlt hx
    simp only [hdesc, hclock] at hx ⊢
    exact hinv.aim e x hlt hx

variable [DecidableEq Λ]

/-- A lock other than the one that is written. -/
theorem setLck_lck (sh : Shared Λ) (l l' : Λ) (w : Entry) :
    (sh.setLck l w).lck l' = if l' = l then w else sh.lck l' := by
  by_cases hl : l' = l
  · subst hl
    simp [Shared.setLck]
  · simp [Shared.setLck, hl]

/-- The counts of the locks after one is written. -/
theorem setLck_clock (sh : Shared Λ) (l l' : Λ) (w : Entry) :
    (sh.setLck l w).clock l' = if l' = l then
      (match w with
        | .unlocked c => c
        | .locked d => (sh.descs d).counter.count) else sh.clock l' := by
  unfold Shared.clock
  rw [setLck_lck]
  by_cases hl : l' = l
  · rw [if_pos hl, if_pos hl]
    rfl
  · rw [if_neg hl, if_neg hl]
    rfl

/-- Storing a descriptor into a lock that is free with the count of its call. -/
theorem SharedInv.store (hinv : SharedInv h sh) {d x : Nat} (hd : d < sh.fresh)
    (hl : sh.lck (sh.descs d).lock = .unlocked x) (hx : (sh.descs d).counter = .unlocked x) :
    Evolves h sh [.stored d] (sh.setLck (sh.descs d).lock (.locked d)) := by
  set l := (sh.descs d).lock with hlock
  have hlive : ¬ sh.Missed d := fun hm => (hm x hx).ne_lck hl
  have hnew : ¬ Stored h d := fun hs => hlive (hinv.stored d hs).2.2.2
  have hclock : ∀ l', (sh.setLck l (.locked d)).clock l' = sh.clock l' := by
    intro l'
    rw [setLck_clock]
    split
    · rename_i heq
      rw [heq]
      simp [Shared.clock, hl, hx, Entry.count]
    · rfl
  have hdead : ∀ l' y, sh.Dead l' y → (sh.setLck l (.locked d)).Dead l' y := by
    intro l' y hy
    refine .of_ne ?_ ?_
    · rw [hclock]
      rcases hy with hlt | ⟨heq, _⟩
      · exact hlt.le
      · exact heq.le
    · rw [setLck_lck]
      split
      · simp
      · exact hy.ne_lck
  have hstored : ∀ e, Stored (h ++ [.stored d]) e ↔ Stored h e ∨ e = d := by simp [Stored]
  have hext : Ext h sh (h ++ [.stored d]) (sh.setLck l (.locked d)) := by
    refine ⟨fun _ he => List.mem_append_left _ he, le_rfl, fun e _ => ⟨_, rfl, id⟩,
      fun l' => (hclock l').ge, hdead, fun _ _ _ hv => hv, fun _ _ _ hw => hw, fun _ _ _ he => he, ?_⟩
    intro e he
    rcases (hstored e).mp he with hold | rfl
    · exact .inl hold
    · exact .inr ⟨hd, hlive⟩
  refine ⟨hext, ⟨hinv.fresh, ?_, ?_, ?_, ?_⟩, hext.logInv hinv.toLogInv rfl rfl⟩
  · intro l' e hl'
    rw [setLck_lck] at hl'
    split at hl'
    · rename_i heq
      cases hl'
      exact ⟨(hstored d).mpr (.inr rfl), heq.symm ▸ hlock.symm, x, hx⟩
    · obtain ⟨hs, hlk, hc⟩ := hinv.installed l' e hl'
      exact ⟨(hstored e).mpr (.inl hs), hlk, hc⟩
  · intro e he
    rcases (hstored e).mp he with hold | rfl
    · obtain ⟨hlt, hor, hc, hm⟩ := hinv.stored e hold
      refine ⟨hlt, ?_, hc, hext.missed hlt hm⟩
      rcases hor with hinst | hdone
      · left
        show (sh.setLck l (.locked d)).lck (sh.descs e).lock = _
        rw [setLck_lck, if_neg]
        · exact hinst
        · intro heq
          rw [heq, hl] at hinst
          cases hinst
      · exact .inr hdone
    · refine ⟨hd, .inl ?_, ⟨x, hx⟩, ?_⟩
      · show (sh.setLck l (.locked e)).lck (sh.descs e).lock = _
        rw [setLck_lck, if_pos hlock.symm]
      · intro y hy
        refine .of_ne ?_ ?_
        · rw [hclock]
          exact hinv.aim e y hd hy
        · show (sh.setLck l (.locked e)).lck (sh.descs e).lock ≠ _
          rw [setLck_lck, if_pos hlock.symm]
          simp
  · intro e hlt he
    exact (hstored e).mpr (.inl (hinv.done e hlt he))
  · intro e y hlt hy
    rw [hclock]
    exact hinv.aim e y hlt hy

/-- Unlocking: the word written is the next count. -/
theorem SharedInv.unlock (hinv : SharedInv h sh) {d : Nat} {l : Λ} (hl : sh.lck l = .locked d)
    (hdone : (sh.descs d).done) :
    Evolves h sh [] (sh.setLck l (sh.descs d).counter.succ) := by
  obtain ⟨hst, hlock, c, hc⟩ := hinv.installed l d hl
  have hold : sh.clock l = c := by simp [Shared.clock, hl, hc, Entry.count]
  rw [hc, Entry.succ]
  have hclock : ∀ l', (sh.setLck l (.unlocked (c + 1))).clock l' =
      if l' = l then c + 1 else sh.clock l' := by
    intro l'
    rw [setLck_clock]
  have hle : ∀ l', sh.clock l' ≤ (sh.setLck l (.unlocked (c + 1))).clock l' := by
    intro l'
    rw [hclock]
    split
    · rename_i heq
      rw [heq]
      omega
    · exact le_rfl
  have hext : Ext h sh h (sh.setLck l (.unlocked (c + 1))) := by
    refine ⟨fun _ he => he, le_rfl, fun e _ => ⟨_, rfl, id⟩, hle, ?_, fun _ _ _ hv => hv,
      fun _ _ _ hw => hw, fun _ _ _ he => he, fun e he => .inl he⟩
    intro l' y hy
    have hy' : y ≤ sh.clock l' := by
      rcases hy with hlt | ⟨heq, _⟩
      · exact hlt.le
      · exact heq.le
    refine .of_ne (hy'.trans (hle l')) ?_
    rw [setLck_lck]
    split
    · rename_i heq
      rw [heq, hold] at hy'
      intro habs
      cases habs
      omega
    · exact hy.ne_lck
  rw [Evolves, List.append_nil]
  refine ⟨hext, ⟨hinv.fresh, ?_, ?_, hinv.done, ?_⟩, hext.logInv hinv.toLogInv rfl rfl⟩
  · intro l' e hl'
    rw [setLck_lck] at hl'
    split at hl'
    · cases hl'
    · exact hinv.installed l' e hl'
  · intro e he
    obtain ⟨hlt, hor, hx, hm⟩ := hinv.stored e he
    refine ⟨hlt, ?_, hx, hext.missed hlt hm⟩
    rcases hor with hinst | hd
    · show (sh.setLck l _).lck (sh.descs e).lock = _ ∨ _
      rw [setLck_lck]
      split
      · rename_i heq
        rw [heq, hl] at hinst
        cases hinst
        exact .inr hdone
      · exact .inl hinst
    · exact .inr hd
  · intro e y hlt hy
    exact (hinv.aim e y hlt hy).trans (hle _)

omit [DecidableEq Λ] in
/-- The shared memory after allocating a descriptor, with or without linking it to a log. -/
structure Allocated (sh : Shared Λ) (D : Descriptor Λ) (sh' : Shared Λ) : Prop where
  lck : sh'.lck = sh.lck
  descs : sh'.descs = Function.update sh.descs sh.fresh D
  fresh : sh'.fresh = sh.fresh + 1
  value : ∀ d i, (sh'.slots d i).value = (sh.slots d i).value
  current : ∀ d i, (sh'.slots d i).current = (sh.slots d i).current
  result : ∀ d i, (sh'.slots d i).result = (sh.slots d i).result
  desc : ∀ d i e, (sh.slots d i).desc = some e → (sh'.slots d i).desc = some e

omit [DecidableEq Λ] in
/-- Allocating extends the shared memory and keeps the invariant of the words. -/
theorem SharedInv.allocated (hinv : SharedInv h sh) {D : Descriptor Λ}
    (hnew : Allocated sh D sh') {w : Entry} (hseen : Seen sh D.lock w)
    (hcounter : D.counter = firstCounter w) (hdone : D.done = false) :
    Ext h sh h sh' ∧ WordInv h sh' := by
  have hself : sh'.descs sh.fresh = D := by rw [hnew.descs, Function.update_self]
  have hother : ∀ e, e ≠ sh.fresh → sh'.descs e = sh.descs e := by
    intro e he
    rw [hnew.descs, Function.update_of_ne he]
  have hlt : ∀ e, e < sh.fresh → sh'.descs e = sh.descs e := fun e he => hother e he.ne
  have hclock : ∀ l, sh'.clock l = sh.clock l := by
    intro l
    unfold Shared.clock
    rw [hnew.lck]
    cases hl : sh.lck l with
    | unlocked c => rfl
    | locked e => simp [hlt e (hinv.stored e (hinv.installed l e hl).1).1]
  have hdead : ∀ l x, sh'.Dead l x ↔ sh.Dead l x := by
    intro l x
    simp only [Shared.Dead, hclock, hnew.lck]
  have hext : Ext h sh h sh' := by
    refine ⟨fun _ he => he, by rw [hnew.fresh]; omega, ?_, fun l => (hclock l).ge,
      fun l x hx => (hdead l x).mpr hx, ?_, ?_, hnew.desc, fun e he => .inl he⟩
    · intro d hd
      exact ⟨_, hlt d hd, id⟩
    · intro d i v hv
      rw [hnew.value, hv]
    · intro d i w hw
      rw [hnew.current, hw]
  refine ⟨hext, ⟨by rw [hnew.fresh]; omega, ?_, ?_, ?_, ?_⟩⟩
  · intro l e hl
    rw [hnew.lck] at hl
    obtain ⟨hs, hlock, hc⟩ := hinv.installed l e hl
    rw [hlt e (hinv.stored e hs).1]
    exact ⟨hs, hlock, hc⟩
  · intro e he
    obtain ⟨hfr, hor, hx, hm⟩ := hinv.stored e he
    rw [hlt e hfr, hnew.lck, hnew.fresh]
    exact ⟨by omega, hor, hx, hext.missed hfr hm⟩
  · intro e hfr he
    by_cases hf : e = sh.fresh
    · subst hf
      rw [hself, hdone] at he
      cases he
    · rw [hother e hf] at he
      rw [hnew.fresh] at hfr
      exact hinv.done e (by omega) he
  · intro e x hfr hx
    rw [hclock]
    by_cases hf : e = sh.fresh
    · subst hf
      rw [hself, hcounter] at hx
      rw [hself]
      cases w with
      | locked k => cases hx
      | unlocked y =>
          cases hx
          exact hseen.le x rfl
    · rw [hother e hf] at hx ⊢
      rw [hnew.fresh] at hfr
      exact hinv.aim e x (by omega) hx

omit [DecidableEq Λ] in
/-- The descriptor of an outermost call. -/
theorem SharedInv.allocate_root (hinv : SharedInv h sh) {D : Descriptor Λ} {w : Entry}
    (hseen : Seen sh D.lock w) (hcounter : D.counter = firstCounter w) (hdone : D.done = false)
    (hroot : D.root = sh.fresh) : Evolves h sh [] (sh.allocate D) := by
  have hnew : Allocated sh D (sh.allocate D) :=
    ⟨rfl, rfl, rfl, fun _ _ => rfl, fun _ _ => rfl, fun _ _ => rfl, fun _ _ _ he => he⟩
  obtain ⟨hext, hword⟩ := hinv.allocated hnew hseen hcounter hdone
  have hlog := hinv.toLogInv
  rw [Evolves, List.append_nil]
  refine ⟨hext, hword, ⟨?_, hlog.parent, ?_, ?_, ?_⟩⟩
  · intro d i e he
    exact hext.child hlog (hlog.child d i e he)
  · intro d i res hr
    obtain ⟨e, he, ho⟩ := hlog.result d i res hr
    exact ⟨e, he, hext.outcome hlog (hlog.child d i e he).fresh ho⟩
  · intro d i w hw
    obtain ⟨l, body, k, hk, hs⟩ := hlog.load d i w hw
    exact ⟨l, body, k, hext.at hlog hk, hext.seen hs⟩
  · intro d hd
    by_cases hf : d = sh.fresh
    · subst hf
      have hself : (sh.allocate D).descs sh.fresh = D := Function.update_self ..
      rw [hself, hroot]
      exact ⟨le_rfl, .inl rfl⟩
    · have hd : d < sh.fresh := lt_of_le_of_ne (Nat.le_of_lt_succ hd) hf
      rw [(hext.desc_eq hd).2.1]
      exact hlog.root d hd

omit [DecidableEq Λ] in
/-- The descriptor of a nested call, the operation `i` of the thunk of `d`. -/
theorem SharedInv.allocate_child (hinv : SharedInv h sh) {D : Descriptor Λ} {w : Entry} {d i : Nat}
    {k : Option Nat → Thunk Λ} (hcounter : D.counter = firstCounter w) (hdone : D.done = false)
    (hroot : D.root = (sh.descs d).root) (htid : D.threadId = (sh.descs d).threadId)
    (hst : Stored h d) (hcall : At h sh d i (.tryLock D.lock D.thunk k))
    (hcur : (sh.slots d i).current = some w)
    (hself : sh.lockIsSelf (sh.descs d).threadId w = false) (hnone : (sh.slots d i).desc = none) :
    Evolves h sh [] ((sh.allocate D).setSlot d i
      { sh.slots d i with desc := some sh.fresh }) := by
  set sh' := (sh.allocate D).setSlot d i { sh.slots d i with desc := some sh.fresh } with hsh'
  have hslot : ∀ d' i', sh'.slots d' i' =
      if d' = d ∧ i' = i then { sh.slots d i with desc := some sh.fresh } else sh.slots d' i' :=
    fun d' i' => setSlot_slots (sh.allocate D) d i d' i' _
  have hdesc : ∀ d' i' e, (sh'.slots d' i').desc = some e ↔
      (sh.slots d' i').desc = some e ∨ (d' = d ∧ i' = i) ∧ e = sh.fresh := by
    intro d' i' e
    rw [hslot]
    by_cases heq : d' = d ∧ i' = i
    · rw [if_pos heq, heq.1, heq.2, hnone]
      simp [eq_comm]
    · simp [heq]
  have hnew : Allocated sh D sh' := by
    refine ⟨rfl, rfl, rfl, ?_, ?_, ?_, fun d' i' e he => (hdesc d' i' e).mpr (.inl he)⟩ <;>
      intro d' i' <;> rw [hslot] <;> split
    all_goals first
      | rfl
      | (rename_i heq; rw [heq.1, heq.2])
  obtain ⟨l, body, k', hk', hseen⟩ := hinv.load d i w hcur
  have hlock : D.lock = l := by
    have heq := hk'.unique hcall
    cases heq
    rfl
  obtain ⟨hext, hword⟩ := hinv.allocated hnew (hlock ▸ hseen) hcounter hdone
  have hlog := hinv.toLogInv
  have hself' : sh'.descs sh.fresh = D := Function.update_self ..
  have hd := hcall.lt_fresh
  rw [Evolves, List.append_nil]
  refine ⟨hext, hword, ⟨?_, ?_, ?_, ?_, ?_⟩⟩
  · intro d' i' e he
    rcases (hdesc d' i' e).mp he with he | ⟨⟨rfl, rfl⟩, rfl⟩
    · exact hext.child hlog (hlog.child d' i' e he)
    · obtain ⟨_, hroot', _, _, htid', _⟩ := hext.desc_eq hd
      refine ⟨hd, by rw [hnew.fresh]; omega, hst, ?_, ?_, ⟨k, ?_⟩, w, ?_, ?_, ?_⟩
      · rw [hself', hroot, hroot']
      · rw [hself', htid, htid']
      · rw [hself']
        exact hext.at hlog hcall
      · rw [hnew.current, hcur]
      · rw [htid', hext.lockIsSelf hseen]
        exact hself
      · rw [hself', hcounter]
  · intro d₁ i₁ d₂ i₂ e h₁ h₂
    rcases (hdesc d₁ i₁ e).mp h₁ with h₁ | ⟨⟨rfl, rfl⟩, hef⟩
    · rcases (hdesc d₂ i₂ e).mp h₂ with h₂ | ⟨_, hef⟩
      · exact hlog.parent d₁ i₁ d₂ i₂ e h₁ h₂
      · exact absurd hef (hlog.child d₁ i₁ e h₁).fresh.ne
    · rcases (hdesc d₂ i₂ e).mp h₂ with h₂ | ⟨⟨rfl, rfl⟩, _⟩
      · exact absurd hef (hlog.child d₂ i₂ e h₂).fresh.ne
      · exact ⟨rfl, rfl⟩
  · intro d' i' res hr
    rw [hnew.result] at hr
    obtain ⟨e, he, ho⟩ := hlog.result d' i' res hr
    exact ⟨e, hnew.desc d' i' e he, hext.outcome hlog (hlog.child d' i' e he).fresh ho⟩
  · intro d' i' u hu
    rw [hnew.current] at hu
    obtain ⟨l, body, k, hk, hs⟩ := hlog.load d' i' u hu
    exact ⟨l, body, k, hext.at hlog hk, hext.seen hs⟩
  · intro e he
    by_cases hf : e = sh.fresh
    · subst hf
      rw [hself', hroot]
      have hle := (hlog.root d hd).1
      exact ⟨by omega, .inr ⟨d, i, (hdesc d i _).mpr (.inr ⟨⟨rfl, rfl⟩, rfl⟩)⟩⟩
    · have he : e < sh.fresh := lt_of_le_of_ne (Nat.le_of_lt_succ (by rwa [hnew.fresh] at he)) hf
      rw [(hext.desc_eq he).2.1]
      obtain ⟨hle, hor⟩ := hlog.root e he
      exact ⟨hle, hor.imp_right fun ⟨a, j, hj⟩ => ⟨a, j, hnew.desc a j e hj⟩⟩

end Verlib.Flock.Nested
