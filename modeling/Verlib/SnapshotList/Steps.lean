import Verlib.SnapshotList.Threads

/-!
# What a step can do

Every step of a thread is one of a few kinds. It gives a version its stamp, or stores one under a lock, or changes
nothing but the clock, its own locks and the flag of a node that it has locked. The other threads can rely on this.
-/

namespace Verlib.SnapshotList

open Interleaving Interleaving.Versions Indirect Linked
open SortedList (Op root)

variable {K V R ι : Type} [LinearOrder K]

/-- The update has stored a version, and will return true. -/
def Update.stored : Update → Bool
  | .unlock _ done => done
  | _ => false

/-- Only locks of thread `c` change, and only flags of nodes that it has locked. -/
structure Owned (c : ι) (m m' : Memory K V ι) : Prop where
  locks : ∀ a, m'.locks a = m.locks a ∨
    (m.locks a = none ∨ m.locks a = some c) ∧ (m'.locks a = none ∨ m'.locks a = some c)
  removed : ∀ a, m'.removed a = m.removed a ∨ m.locks a = some c

/-- The steps of thread `c`: its position, what the step shows, and the memory and the position after it. -/
inductive Step (c : ι) (m : Memory K V ι) :
    Pc K V R → List (What K V R ι) → Memory K V ι → Pc K V R → Prop where
  | call (o : Op K V) : Step c m .idle [.call c m.calls o] { m with calls := m.calls + 1 } (.update m.calls o .first)
  | withSnapshot (f : Body K V R) :
      Step c m .idle [.withSnapshot c m.calls f] { m with calls := m.calls + 1 } (.starting m.calls f .load)
  | quiet {n : Nat} {o : Op K V} {l l' : Update} {m' : Memory K V ι} (hquiet : Quiet m m') (hcalls : m'.calls = m.calls)
      (howned : Owned c m m') (hstored : l'.stored = l.stored) : Step c m (.update n o l) [] m' (.update n o l')
  | load {n : Nat} {o : Op K V} {l : Update} {p : Nat} (hstored : l.stored = false) :
      Step c m (.update n o l) [] m (.stamping n o l p (m.versions.last p) .load)
  | store {n : Nat} {o : Op K V} {l l' : Update} {p : Nat} {m' : Memory K V ι} (hstored : l.stored = false)
      (hstored' : l'.stored = true) (hinv : Inv m') (hinstall : Install m m' p c n o) (hlock : m.locks p = some c) :
      Step c m (.update n o l) [] m' (.stamping n o l' p (m.versions.last p + 1) .load)
  | ret {n : Nat} {o : Op K V} {l : Update} : Step c m (.update n o l) [.ret c n l.stored] m .idle
  | setting {n : Nat} {o : Op K V} {l : Update} {p i : Nat} {s s' : SetStamp} :
      Step c m (.stamping n o l p i s) [] m (.stamping n o l p i s')
  | set {n : Nat} {o : Op K V} {l l' : Update} {p i : Nat} {s : SetStamp} (hs : m.versions.stamp p i ≠ none)
      (hstored : l'.stored = l.stored) : Step c m (.stamping n o l p i s) [] m (.update n o l')
  | stamp {n : Nat} {o : Op K V} {l l' : Update} {p i t : Nat} {s : SetStamp} (hstamp : Stampable m p i t)
      (hstored : l'.stored = l.stored) :
      Step c m (.stamping n o l p i s) (stampEvents m p i (some t)) (m.stamped p i t) (.update n o l')
  | clock {n : Nat} {f : Body K V R} : Step c m (.starting n f .load) [] m (.starting n f (.test m.versions.clock))
  | test {n : Nat} {f : Body K V R} {ts : Nat} : Step c m (.starting n f (.test ts)) [] m (.starting n f (.add ts))
  | began {n : Nat} {f : Body K V R} {s : ReadStamp} {ts : Nat} {m' : Memory K V ι} (hts : s = .test ts ∨ s = .add ts)
      (hquiet : Quiet m m') (hcalls : m'.calls = m.calls) (howned : Owned c m m') (hclock : ts < m'.versions.clock) :
      Step c m (.starting n f s) [.began c n ts] m' (.body n ts f)
  | answer {n ls : Nat} {r : R} : Step c m (.body n ls (.ret r)) [.answer c n r] m .idle
  | node {n ls a : Nat} {f : Node K V → Body K V R} (ha : a < m.fresh) :
      Step c m (.body n ls (.node a f)) [] m (.body n ls (f (m.nodes a)))
  | read {n ls a : Nat} {f : Nat → Body K V R} (ha : a < m.fresh) :
      Step c m (.body n ls (.load a f)) [] m (.reading n ls f a (m.versions.last a) .load)
  | readSetting {n ls p i : Nat} {f : Nat → Body K V R} {s s' : SetStamp} :
      Step c m (.reading n ls f p i s) [] m (.reading n ls f p i s')
  | readSet {n ls p i : Nat} {f : Nat → Body K V R} {s : SetStamp} :
      Step c m (.reading n ls f p i s) [] m (.walking n ls f p i)
  | readStamp {n ls p i t : Nat} {f : Nat → Body K V R} {s : SetStamp} (hstamp : Stampable m p i t) :
      Step c m (.reading n ls f p i s) (stampEvents m p i (some t)) (m.stamped p i t) (.walking n ls f p i)
  | walk {n ls p i : Nat} {f : Nat → Body K V R} : Step c m (.walking n ls f p i) [] m (.walking n ls f p (i - 1))
  | value {n ls p i : Nat} {f : Nat → Body K V R} (hp : p < m.fresh) (hcut : m.versions.cut ls p = i)
      (hset : m.versions.Settled ls p) : Step c m (.walking n ls f p i) [] m (.body n ls (f (m.view ls p)))

section

variable {c d : ι} {m m' : Memory K V ι} {o : Op K V} {cur nxt p i n : Nat} {s : SetStamp}

omit [LinearOrder K] in
theorem Owned.refl (c : ι) (m : Memory K V ι) : Owned c m m := ⟨fun _ => .inl rfl, fun _ => .inl rfl⟩

theorem Quiet.refl (m : Memory K V ι) : Quiet m m :=
  ⟨le_rfl, rfl, rfl, rfl, rfl, rfl, rfl, fun _ h => h, fun _ => .inl⟩

/-! ## What the others rely on -/

theorem Quiet.author (h : Quiet m m') (q j : Nat) (d : ι) (k : Nat) (o : Op K V) :
    m'.Author q j d k o ↔ m.Author q j d k o := by
  rw [Memory.Author, Memory.Author, h.last, h.value]

theorem Owned.rely (howned : Owned c m m') (hquiet : Quiet m m') (hinv : Inv m) (hd : d ≠ c) : Rely d m m' where
  toExt := (hquiet.safe hinv).toExt
  locks a := by
    obtain heq | ⟨hold, hnew⟩ := howned.locks a
    · rw [heq]
    · have hne : ∀ {l : Option ι}, l = none ∨ l = some c → l ≠ some d := by
        intro l hl heq
        obtain rfl | rfl := hl
        · cases heq
        · exact hd (Option.some.inj heq).symm
      exact iff_of_false (hne hnew) (hne hold)
  held a ha := by
    refine ⟨congrFun hquiet.last a, (howned.removed a).resolve_right fun hc => ?_⟩
    rw [ha] at hc
    exact hd (Option.some.inj hc)
  authors p i n o := hquiet.author p i d n o

theorem Stampable.rely {t : Nat} (h : Stampable m p i t) (hinv : Inv m) : Rely d m (m.stamped p i t) where
  toExt := (h.safe hinv).toExt
  locks _ := Iff.rfl
  held _ _ := ⟨rfl, rfl⟩
  authors _ _ _ _ := Iff.rfl

theorem Install.rely (h : Install m m' p c n o) (hlock : m.locks p = some c) (hd : d ≠ c) : Rely d m m' where
  toExt := h.ext
  locks a := by rw [h.locks]
  held a ha := by
    have hne : a ≠ p := by
      intro heq
      rw [heq, hlock] at ha
      exact hd (Option.some.inj ha).symm
    exact ⟨h.last_of_ne a hne, congrFun h.removed a⟩
  authors q j k o' := by
    rw [h.author]
    refine or_iff_left fun hnew => hd ?_
    exact congrArg Prod.fst hnew.2.2

/-- A quiet step, a stamp, or a store. -/
theorem Step.effect {pc pc' : Pc K V R} {es : List (What K V R ι)} (h : Step c m pc es m' pc') :
    (Quiet m m' ∧ Owned c m m') ∨ (∃ p i t, Stampable m p i t ∧ m' = m.stamped p i t) ∨
      ∃ p n o, Inv m' ∧ Install m m' p c n o ∧ m.locks p = some c := by
  have hrefl : Quiet m m ∧ Owned c m m := ⟨Quiet.refl m, Owned.refl c m⟩
  cases h with
  | call o => exact .inl ⟨quiet_calls m _, fun _ => .inl rfl, fun _ => .inl rfl⟩
  | withSnapshot f => exact .inl ⟨quiet_calls m _, fun _ => .inl rfl, fun _ => .inl rfl⟩
  | quiet hquiet hcalls howned hstored => exact .inl ⟨hquiet, howned⟩
  | began hts hquiet hcalls howned hclock => exact .inl ⟨hquiet, howned⟩
  | stamp hstamp hstored => exact .inr (.inl ⟨_, _, _, hstamp, rfl⟩)
  | readStamp hstamp => exact .inr (.inl ⟨_, _, _, hstamp, rfl⟩)
  | store hstored hstored' hinv hinstall hlock => exact .inr (.inr ⟨_, _, _, hinv, hinstall, hlock⟩)
  | _ => exact .inl hrefl

/-- What a step leaves to the others. -/
theorem Step.rely {pc pc' : Pc K V R} {es : List (What K V R ι)} (h : Step c m pc es m' pc') (hinv : Inv m) (hd : d ≠ c) :
    Rely d m m' := by
  obtain ⟨hquiet, howned⟩ | ⟨p, i, t, hstamp, rfl⟩ | ⟨p, n, o, -, hinstall, hlock⟩ := h.effect
  · exact howned.rely hquiet hinv hd
  · exact hstamp.rely hinv
  · exact hinstall.rely hlock hd

/-- A step keeps the invariant of the memory. -/
theorem Step.inv {pc pc' : Pc K V R} {es : List (What K V R ι)} (h : Step c m pc es m' pc') (hinv : Inv m) : Inv m' := by
  obtain ⟨hquiet, -⟩ | ⟨p, i, t, hstamp, rfl⟩ | ⟨p, n, o, hinv', -, -⟩ := h.effect
  · exact hinv.quiet hquiet
  · exact hstamp.inv hinv
  · exact hinv'

/-! ## The steps of the machine -/

omit [LinearOrder K] in
/-- `set_stamp` goes on, ends because the version has a stamp, or gives it one. -/
theorem setStamp_cases {t : Option Nat} {r : Option SetStamp} (hset : Setting m p i s) (hordered : m.versions.Ordered)
    (h : setStamp m p i s = (m', t, r)) :
    (m' = m ∧ t = none ∧ ((∃ s', r = some s' ∧ Setting m p i s') ∨ r = none ∧ m.versions.stamp p i ≠ none)) ∨
      ∃ t₀, t = some t₀ ∧ r = none ∧ Stampable m p i t₀ ∧ m' = m.stamped p i t₀ := by
  cases s with
  | load =>
      cases h
      refine .inl ⟨rfl, rfl, ?_⟩
      split
      · exact .inl ⟨.clock, rfl, hset⟩
      · rename_i hs
        exact .inr ⟨rfl, hs⟩
  | clock =>
      cases h
      exact .inl ⟨rfl, rfl, .inl ⟨_, rfl, hset, hordered.born_le p i hset, le_rfl⟩⟩
  | again t =>
      cases h
      refine .inl ⟨rfl, rfl, ?_⟩
      split
      · exact .inl ⟨.swap t, rfl, hset⟩
      · rename_i hs
        exact .inr ⟨rfl, hs⟩
  | swap t =>
      rw [setStamp] at h
      split at h
      · rename_i hs
        cases h
        exact .inr ⟨t, rfl, rfl, ⟨hs, hset.1, hset.2.1, hset.2.2⟩, rfl⟩
      · rename_i hs
        cases h
        exact .inl ⟨rfl, rfl, .inr ⟨rfl, hs⟩⟩

omit [LinearOrder K] in
/-- A free lock is taken. -/
theorem owned_lock {a : Nat} (hfree : m.locks a = none) : Owned c m (m.setLock a (some c)) := by
  refine ⟨fun b => ?_, fun _ => .inl rfl⟩
  by_cases hb : b = a
  · rw [hb]
    exact .inr ⟨.inl hfree, .inr (Function.update_self ..)⟩
  · exact .inl (Function.update_of_ne hb ..)

omit [LinearOrder K] in
/-- A lock is released. -/
theorem owned_unlock {a : Nat} (hlock : m.locks a = some c) : Owned c m (m.setLock a none) := by
  refine ⟨fun b => ?_, fun _ => .inl rfl⟩
  by_cases hb : b = a
  · rw [hb]
    exact .inr ⟨.inr hlock, .inl (Function.update_self ..)⟩
  · exact .inl (Function.update_of_ne hb ..)

omit [LinearOrder K] in
/-- A locked node is marked. -/
theorem owned_mark {a : Nat} (hlock : m.locks a = some c) : Owned c m (m.setRemoved a) := by
  refine ⟨fun _ => .inl rfl, fun b => ?_⟩
  by_cases hb : b = a
  · rw [hb]
    exact .inr hlock
  · exact .inl (Function.update_of_ne hb ..)

/-- After a quiet step the nodes are still what they were found to be. -/
theorem Checked.quiet {k : K} (h : Checked m k cur nxt) (hinv : Inv m) (hquiet : Quiet m m')
    (hlive : m'.removed cur = m.removed cur) : Checked m' k cur nxt := by
  refine ⟨(hquiet.safe hinv).visible _ h.visible, ?_, ?_, hlive.trans h.live, ?_, ?_⟩
  · rw [hquiet.nodes]
    exact h.inner
  · rw [hquiet.nodes]
    exact h.before
  · rw [hquiet.stamp, hquiet.last]
    exact h.stamped
  · rw [hquiet.next, hquiet.last]
    exact h.next

/-- What a step of an update does that is no load. -/
theorem act_step {free : Bool} {l : Update} {r : Update ⊕ (Nat × Nat × Update) ⊕ Bool} (h : l.Known c m o) (hinv : Inv m)
    [DecidableEq ι] (hact : l.act c n o m free = some (m', r)) :
    (∃ l', r = .inl l' ∧ Quiet m m' ∧ m'.calls = m.calls ∧ Owned c m m' ∧ l'.stored = l.stored ∧ l'.Known c m' o) ∨
      (∃ p l', r = .inr (.inl (p, m.versions.last p + 1, l')) ∧ l.stored = false ∧ l'.stored = true ∧ Inv m' ∧
        Install m m' p c n o ∧ m.locks p = some c ∧ l'.loads = none ∧ l'.Known c m' o) ∨
      (r = .inr (.inr l.stored) ∧ m' = m) := by
  have hsame : ∀ {l' : Update}, l'.stored = l.stored → l'.Known c m o → Quiet m m ∧ m.calls = m.calls ∧ Owned c m m ∧
      l'.stored = l.stored ∧ l'.Known c m o := fun hs hk => ⟨Quiet.refl m, rfl, Owned.refl c m, hs, hk⟩
  cases l with
  | first => cases hact
  | search cur nxt => cases hact
  | validNext cur nxt => cases hact
  | checkNext cur nxt => cases hact
  | readNext cur nxt => cases hact
  | validRemoved cur =>
      cases hact
      split
      · exact .inr (.inr ⟨rfl, rfl⟩)
      · exact .inl ⟨.first, rfl, hsame rfl trivial⟩
  | lock cur nxt =>
      rw [Update.act] at hact
      split at hact
      · rename_i hfree
        cases hact
        obtain ⟨hsearch, hafter⟩ := h
        have hquiet : Quiet m (m.setLock cur (some c)) := quiet_setLock m cur _
        exact .inl ⟨_, rfl, hquiet, rfl, owned_lock hfree.2, rfl, hsearch.stable (hquiet.safe hinv).toExt, hafter,
          Function.update_self ..⟩
      · cases hact
        exact .inl ⟨.first, rfl, hsame rfl trivial⟩
  | checkRemoved cur nxt =>
      cases hact
      obtain ⟨hsearch, hafter, hlock⟩ := h
      cases hmark : m.removed cur with
      | false =>
          rw [if_pos rfl]
          exact .inl ⟨_, rfl, hsame rfl ⟨hsearch, hafter, hlock, hmark⟩⟩
      | true =>
          rw [if_neg fun heq => by cases heq]
          refine .inl ⟨_, rfl, hsame rfl ⟨List.nodup_singleton cur, fun a ha => ?_⟩⟩
          rw [List.mem_singleton.mp ha]
          exact hlock
  | link cur nxt =>
      obtain ⟨hafter, hchecked, hlock⟩ := h
      cases o with
      | insert k v =>
          cases hact
          obtain ⟨hinv', hinstall⟩ := hchecked.link (v := v) (c := c) (n := n) hinv hafter
          refine .inr (.inl ⟨cur, _, rfl, rfl, rfl, hinv', hinstall, hlock, rfl, List.nodup_singleton cur, fun a ha => ?_⟩)
          rw [List.mem_singleton.mp ha]
          exact hlock
      | remove k => cases hact
  | lockNext cur nxt =>
      obtain ⟨ho, hafter, hchecked, hlock⟩ := h
      rw [Update.act] at hact
      split at hact
      · rename_i hfree
        cases hact
        have hquiet : Quiet m (m.setLock nxt (some c)) := quiet_setLock m nxt _
        have hne : cur ≠ nxt := by
          intro heq
          rw [← heq, hlock] at hfree
          cases hfree.2
        exact .inl ⟨_, rfl, hquiet, rfl, owned_lock hfree.2, rfl, ho, hafter, hchecked.quiet hinv hquiet rfl,
          (Function.update_of_ne hne ..).trans hlock, Function.update_self ..⟩
      · cases hact
        refine .inl ⟨_, rfl, hsame rfl ⟨List.nodup_singleton cur, fun a ha => ?_⟩⟩
        rw [List.mem_singleton.mp ha]
        exact hlock
  | mark cur nxt b =>
      cases hact
      obtain ⟨hboth, hs, hb⟩ := h
      have hquiet : Quiet m (m.setRemoved nxt) := quiet_setRemoved (hboth.checked.visible_next hinv)
      have hne : cur ≠ nxt := by
        intro heq
        exact Std.Irrefl.irrefl (r := Precedes m.nodes) cur (heq ▸ hboth.checked.related hinv)
      have hlive : (m.setRemoved nxt).removed cur = m.removed cur := Function.update_of_ne hne ..
      exact .inl ⟨_, rfl, hquiet, rfl, owned_mark hboth.lockNext, rfl,
        ⟨hboth.remove, hboth.after, hboth.checked.quiet hinv hquiet hlive, hboth.lock, hboth.lockNext⟩, hs, hb,
        Function.update_self ..⟩
  | unlink cur nxt b =>
      cases hact
      obtain ⟨hboth, hs, hb, hmark⟩ := h
      obtain ⟨ho, hafter, hchecked, hlock, hlockNext⟩ := hboth
      have hne : nxt ≠ cur := by
        intro heq
        rw [heq, hchecked.live] at hmark
        cases hmark
      rw [ho] at hafter ⊢
      obtain ⟨hinv', hinstall⟩ := hchecked.unlink (c := c) (n := n) hinv hafter.1 hafter.2 hmark hs hb
      refine .inr (.inl ⟨cur, _, rfl, rfl, rfl, hinv', hinstall, hlock, rfl, ?_, fun a ha => ?_⟩)
      · exact List.nodup_cons.mpr ⟨fun hmem => hne (List.mem_singleton.mp hmem), List.nodup_singleton cur⟩
      · obtain rfl | ha := List.mem_cons.mp ha
        · exact hlockNext
        · rw [List.mem_singleton.mp ha]
          exact hlock
  | unlock held done =>
      cases held with
      | nil =>
          cases hact
          cases done with
          | false => exact .inl ⟨.first, rfl, hsame rfl trivial⟩
          | true => exact .inr (.inr ⟨rfl, rfl⟩)
      | cons a held =>
          cases hact
          obtain ⟨hnodup, hlocks⟩ := h
          obtain ⟨hnot, hnodup⟩ := List.nodup_cons.mp hnodup
          refine .inl ⟨_, rfl, quiet_setLock m a none, rfl, owned_unlock (hlocks a List.mem_cons_self), rfl, hnodup,
            fun b hb => ?_⟩
          have hne : b ≠ a := fun heq => hnot (heq ▸ hb)
          exact (Function.update_of_ne hne ..).trans (hlocks b (List.mem_cons_of_mem _ hb))

omit [LinearOrder K] in
/-- The positions before a load. -/
theorem not_stored {l : Update} {q : Nat} (hl : l.loads = some q) : l.stored = false := by
  cases l with
  | unlock held done => cases hl
  | _ => rfl

/-- What follows `find_location` stores nothing yet. -/
theorem located_stored {d : Node K V} : (located o d cur nxt).stored = false := by
  cases o with
  | insert k v =>
      show Update.stored (if _ then _ else _) = false
      split <;> rfl
  | remove k =>
      show Update.stored (if _ then _ else _) = false
      split <;> rfl

/-- Nor does a load store something. -/
theorem loaded_stored {nodes : Nat → Node K V} {x : Nat} (l : Update) : (l.loaded o nodes x).stored = l.stored := by
  cases l with
  | search cur nxt =>
      show Update.stored (if _ then located o _ _ _ else _) = false
      split
      · exact located_stored
      · rfl
  | validNext cur nxt =>
      show Update.stored (if _ then _ else _) = false
      split <;> rfl
  | checkNext cur nxt =>
      show Update.stored (if _ then _ else _) = false
      split
      · cases o with
        | insert k v => rfl
        | remove k => rfl
      · rfl
  | _ => rfl

variable [DecidableEq ι]

/-- Every step of the machine is one of these steps, and keeps what the thread knows. -/
theorem stepThread_step {x : Choice K V R} {pc pc' : Pc K V R} {es : List (What K V R ι)} (hinv : Inv m)
    (hknown : pc.Known c m) (h : stepThread c m x pc = some (es, m', pc')) : Step c m pc es m' pc' ∧ pc'.Known c m' := by
  cases pc with
  | idle =>
      cases x with
      | call o =>
          cases h
          exact ⟨.call o, trivial⟩
      | withSnapshot f =>
          cases h
          exact ⟨.withSnapshot f, trivial⟩
      | step free => cases h
  | update n o l =>
      cases x with
      | call o' => cases h
      | withSnapshot f => cases h
      | step free =>
          cases hloads : l.loads with
          | some p =>
              simp only [stepThread, hloads] at h
              cases h
              refine ⟨.load (not_stored hloads), hknown, le_rfl, fun q hq => ⟨?_, fun _ => rfl⟩⟩
              rw [hloads] at hq
              exact (Option.some.inj hq).symm
          | none =>
              simp only [stepThread, hloads] at h
              obtain ⟨⟨m₁, r⟩, hact, heq⟩ := Option.map_eq_some_iff.mp h
              obtain ⟨l', rfl, hquiet, hcalls, howned, hstored, hl'⟩ | ⟨p, l', rfl, hl, hl', hinv', hinstall, hlock,
                hloads', hknown'⟩ | ⟨rfl, rfl⟩ := act_step hknown hinv hact
              · cases heq
                exact ⟨.quiet hquiet hcalls howned hstored, hl'⟩
              · cases heq
                refine ⟨.store hl hl' hinv' hinstall hlock, hknown', hinstall.last.ge, fun q hq => ?_⟩
                rw [hloads'] at hq
                cases hq
              · cases heq
                exact ⟨.ret, trivial⟩
  | stamping n o l p i s =>
      obtain ⟨hl, hset, hload⟩ := hknown
      rw [stepThread] at h
      cases hstep : setStamp m p i s with
      | mk m₁ tr =>
      obtain ⟨t, r⟩ := tr
      rw [hstep] at h
      obtain ⟨rfl, rfl, ⟨s', rfl, hset'⟩ | ⟨rfl, hs⟩⟩ | ⟨t, rfl, rfl, hstamp, rfl⟩ :=
        setStamp_cases hset hinv.ordered hstep
      · cases h
        exact ⟨.setting, hl, hset', hload⟩
      · cases h
        exact ⟨.set hs (loaded_stored l), hl.loaded hinv hset.le hs hload⟩
      · cases h
        refine ⟨.stamp hstamp (loaded_stored l), ?_⟩
        have hs : (m.stamped p i t).versions.stamp p i ≠ none := by
          rw [show (m.stamped p i t).versions.stamp p i = some t from setStamp_self]
          exact Option.some_ne_none t
        have hl' : l.Known c (m.stamped p i t) o := hl.stable hinv (hstamp.rely hinv)
        exact hl'.loaded (hstamp.inv hinv) hset.le hs hload
  | starting n f s =>
      cases s with
      | load =>
          cases h
          exact ⟨.clock, hinv.clock, le_rfl⟩
      | test ts =>
          rw [stepThread] at h
          split at h
          · cases h
            exact ⟨.test, hknown⟩
          · rename_i hne
            cases h
            have hlt : ts < m.versions.clock := lt_of_le_of_ne hknown.2 fun heq => hne heq.symm
            exact ⟨.began (.inl rfl) (Quiet.refl m) rfl (Owned.refl c m) hlt, hknown.1, hlt⟩
      | add ts =>
          cases h
          have hlt : ts < m.versions.clock + 1 := Nat.lt_succ_of_le hknown.2
          exact ⟨.began (.inr rfl) (quiet_tick m) rfl ⟨fun _ => .inl rfl, fun _ => .inl rfl⟩ hlt, hknown.1, hlt⟩
  | body n ls f =>
      cases f with
      | ret r =>
          cases h
          exact ⟨.answer, trivial⟩
      | node a f =>
          rw [stepThread] at h
          split at h
          · rename_i ha
            cases h
            exact ⟨.node ha, hknown⟩
          · cases h
      | load a f =>
          rw [stepThread] at h
          split at h
          · rename_i ha
            cases h
            exact ⟨.read ha, hknown, ha, le_rfl, fun j hlt hle => absurd hlt (Nat.not_lt.mpr hle)⟩
          · cases h
  | reading n ls f p i s =>
      obtain ⟨hls, hp, hset, hyoung⟩ := hknown
      rw [stepThread] at h
      cases hstep : setStamp m p i s with
      | mk m₁ tr =>
      obtain ⟨t, r⟩ := tr
      rw [hstep] at h
      obtain ⟨rfl, rfl, ⟨s', rfl, hset'⟩ | ⟨rfl, hs⟩⟩ | ⟨t, rfl, rfl, hstamp, rfl⟩ :=
        setStamp_cases hset hinv.ordered hstep
      · cases h
        exact ⟨.readSetting, hls, hp, hset', hyoung⟩
      · cases h
        exact ⟨.readSet, hls, hp, hset.le, hs, hyoung⟩
      · cases h
        refine ⟨.readStamp hstamp, hls, hp, hset.le, ?_, hyoung.stable (hstamp.safe hinv).toExt hls⟩
        rw [show (m.stamped p i t).versions.stamp p i = some t from setStamp_self]
        exact Option.some_ne_none t
  | walking n ls f p i =>
      obtain ⟨hls, hp, hi, hs, hyoung⟩ := hknown
      rw [stepThread] at h
      obtain ⟨t, ht⟩ := Option.ne_none_iff_exists'.mp hs
      split at h
      · -- version `i` is too young, so it is not the first one
        rename_i hless
        cases h
        rw [ht] at hless
        have hlt : ls < t := of_decide_eq_true hless
        have hpos : 0 < i := by
          by_contra hzero
          obtain rfl : i = 0 := by omega
          rw [hinv.first p] at ht
          cases ht
          exact absurd hls.1 (not_le.mpr hlt)
        refine ⟨.walk, hls, hp, (Nat.sub_le i 1).trans hi, hinv.ordered.stamped p (i - 1) (by omega), fun j hj hle => ?_⟩
        by_cases hji : j = i
        · rw [hji]
          exact .inl ⟨t, ht, hlt⟩
        · exact hyoung j (by omega) hle
      · -- version `i` is the one to read
        rename_i hless
        cases h
        rw [ht] at hless
        have hle : t ≤ ls := not_lt.mp fun hlt => hless (decide_eq_true hlt)
        have hcut : m.versions.cut ls p = i := by
          refine cut_eq hi ⟨t, ht, hle⟩ fun j hlt hj hw => ?_
          obtain ⟨s, hs, hsle⟩ := hw
          obtain ⟨t', ht', hlt'⟩ | hborn := hyoung j hlt hj
          · rw [hs] at ht'
            cases ht'
            omega
          · have := hinv.ordered.born_le_stamp p j s hj hs
            omega
        have hview : m.view ls p = m.next p i := congrArg (m.next p) hcut
        rw [← hview]
        refine ⟨.value hp hcut fun j hlt hj => ?_, hls⟩
        rw [hcut] at hlt
        exact hyoung j hlt hj

end

end Verlib.SnapshotList
