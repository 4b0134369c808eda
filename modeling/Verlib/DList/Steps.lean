import Verlib.DList.Threads

/-!
# The steps of a thread

What holds of the list, of the knowledge of the threads and of the history in every state, and what each load and store
of `try_insert` and `try_remove` makes of it.
-/

namespace Verlib.DList.Concurrent

open Interleaving Linked

variable {K V ι : Type} [LinearOrder K]

/-- The list, up to what the threads have begun. -/
def Listing (m : Memory K V) (p : List Nat) (threads : ι → Pc K V) : Prop :=
  Spine m p (fun a => ∃ c, a ∈ (threads c).unlinked) (fun a => ∃ c, a ∈ (threads c).marked)
    fun l => ∃ c, l ∈ (threads c).unpaired

/-- Every write to a `prev` was made by a thread that held the lock of the node before. -/
def WritesOk (h : List (Event K V ι)) : Prop :=
  ∀ h₁ c x, h₁ ++ [.setPrev c x] <+: h → ∃ w, HeldAt h₁ c w x

/-- What holds in every state. -/
structure Inv (h : List (Event K V ι)) (st : State K V ι) (p : List Nat) : Prop where
  listing : Listing st.memory p st.threads
  threads : ∀ c, ThreadOk h st.memory st.locks p c (st.threads c)
  apart : ∀ c c', c' ≠ c → Apart (st.threads c) (st.threads c')
  writes : WritesOk h

/-- The thread of an event. -/
def Event.thread : Event K V ι → ι
  | .acquire c _ _ | .release c _ | .setPrev c _ => c

/-- What has to be shown of a step of thread `c`. -/
structure StepOk [DecidableEq ι] (h : List (Event K V ι)) (st : State K V ι) (p : List Nat) (c : ι) (r : Outcome K V ι)
    (p' : List Nat) : Prop where
  listing : Listing r.memory p' (Function.update st.threads c r.pc)
  self : ThreadOk (h ++ r.event.toList) r.memory r.locks p' c r.pc
  ext : Ext c st.memory r.memory st.locks r.locks p p' (st.threads c) r.pc
  own : ∀ e ∈ r.event, e.thread = c
  writes : ∀ x, r.event = some (.setPrev c x) → ∃ w, HeldAt h c w x

section

variable [DecidableEq ι] {h : List (Event K V ι)} {st : State K V ι} {p p' : List Nat} {c c' : ι} {r : Outcome K V ι}
  {pc pc' : Pc K V} {o : Op K V} {k : K} {v : V} {a x prev next loc new : Nat} {m : Memory K V}

/-! ## Steps keep the invariant -/

omit [LinearOrder K] [DecidableEq ι] in
theorem WritesOk.append (hwrites : WritesOk h) {e : Option (Event K V ι)}
    (he : ∀ c x, e = some (.setPrev c x) → ∃ w, HeldAt h c w x) : WritesOk (h ++ e.toList) := by
  intro h₁ c x hprefix
  cases e with
  | none =>
      rw [Option.toList_none, List.append_nil] at hprefix
      exact hwrites h₁ c x hprefix
  | some e =>
      obtain hlast | hold := List.prefix_concat_iff.mp hprefix
      · obtain ⟨rfl, hevent⟩ := List.append_inj' hlast rfl
        exact he c x (congrArg some (List.singleton_inj.mp hevent).symm)
      · exact hwrites h₁ c x hold

/-- A step keeps what holds in every state. -/
theorem StepOk.inv (hstep : StepOk h st p c r p') (hinv : Inv h st p) :
    Inv (h ++ r.event.toList) ⟨r.memory, r.locks, Function.update st.threads c r.pc⟩ p' := by
  have hes : ∀ c', c' ≠ c → ∀ a, Event.release c' a ∉ r.event.toList := by
    intro c' hc a hmem
    have hown : (Event.release c' a : Event K V ι).thread = c := hstep.own _ (Option.mem_toList.mp hmem)
    exact hc hown
  refine ⟨hstep.listing, fun c' => ?_, fun c₁ c₂ hc => ?_, hinv.writes.append fun c' x he => ?_⟩
  · show ThreadOk _ _ _ _ c' (Function.update st.threads c r.pc c')
    by_cases hc : c' = c
    · subst hc
      rw [Function.update_self]
      exact hstep.self
    · rw [Function.update_of_ne hc]
      exact hstep.ext.other hc hinv.listing (hinv.threads c) (hinv.threads c') (hinv.apart c' c (Ne.symm hc))
        (hes c' hc)
  · show Apart (Function.update st.threads c r.pc c₁) (Function.update st.threads c r.pc c₂)
    by_cases h₁ : c₁ = c
    · subst h₁
      rw [Function.update_self, Function.update_of_ne hc]
      exact hstep.ext.apart' (hinv.threads c₂) (hinv.apart c₁ c₂ hc)
    · rw [Function.update_of_ne h₁]
      by_cases h₂ : c₂ = c
      · subst h₂
        rw [Function.update_self]
        exact hstep.ext.apart (hinv.threads c₁) (hinv.apart c₁ c₂ hc)
      · rw [Function.update_of_ne h₂]
        exact hinv.apart c₁ c₂ hc
  · obtain rfl : c' = c := hstep.own _ he
    exact hstep.writes x he

/-! ## Loads -/

omit [LinearOrder K] in
/-- What a thread has begun stays begun, up to its own step. -/
theorem exists_update {α : Type} {f : Pc K V → List α} {threads : ι → Pc K V} {y : α}
    (hy : ∃ c', y ∈ f (threads c')) (hkeep : y ∈ f (threads c) → y ∈ f pc') :
    ∃ c', y ∈ f (Function.update threads c pc' c') := by
  obtain ⟨c', hy⟩ := hy
  refine ⟨c', ?_⟩
  by_cases hc : c' = c
  · subst hc
    rw [Function.update_self]
    exact hkeep hy
  · rwa [Function.update_of_ne hc]

omit [LinearOrder K] in
theorem exists_update_self {α : Type} {f : Pc K V → List α} {threads : ι → Pc K V} {y : α} (hy : y ∈ f pc') :
    ∃ c', y ∈ f (Function.update threads c pc' c') :=
  ⟨c, by rwa [Function.update_self]⟩

/-- A thread that has left nothing open goes on. -/
theorem Inv.listing_of_closed (hinv : Inv h st p)
    (hclosed : (st.threads c).unlinked = [] ∧ (st.threads c).marked = [] ∧ (st.threads c).unpaired = []) :
    Listing st.memory p (Function.update st.threads c pc') := by
  obtain ⟨hunlinked, hmarked, hunpaired⟩ := hclosed
  refine hinv.listing.mono (fun a ha => exists_update ha ?_) (fun a ha => exists_update ha ?_)
    fun l hl => exists_update hl ?_
  · rw [hunlinked]
    exact fun ha => by cases ha
  · rw [hmarked]
    exact fun ha => by cases ha
  · rw [hunpaired]
    exact fun hl => by cases hl

/-- A step that only loads, or that fails to acquire a lock. -/
theorem Inv.load (hinv : Inv h st p) (hpc : st.threads c = pc) (hself : ThreadOk h st.memory st.locks p c pc')
    (hnexts : ∀ n ∈ pc'.nexts, n ∈ pc.nexts ∨ ∃ a, Alloc st.memory a ∧ st.memory.next a = n)
    (hprevs : ∀ n ∈ pc'.prevs, n ∈ pc.prevs ∨ ∃ a, Alloc st.memory a ∧ st.memory.prev a = n)
    (hclosed : pc.unlinked = [] ∧ pc.marked = [] ∧ pc.unpaired = []) (hviews : pc'.hidden = [] ∧ pc'.unlinked = [])
    (hheld : pc'.held = pc.held) : StepOk h st p c (goOn st.memory st.locks pc') p := by
  subst hpc
  obtain ⟨hhidden', hunlinked'⟩ := hviews
  refine ⟨hinv.listing_of_closed hclosed, ?_, ?_, fun e he => (by cases he), fun x he => (by cases he)⟩
  · show ThreadOk (h ++ []) _ _ _ _ _
    rw [List.append_nil]
    exact hself
  · constructor
    case nexts_from => exact hnexts
    case prevs_from => exact fun n hn => (hprevs n hn).imp_right .inl
    case hidden_from => simp [goOn, hhidden']
    case unlinked_from => simp [goOn, hunlinked']
    all_goals simp +contextual [goOn]

/-- A call. -/
theorem Inv.call (hinv : Inv h st p) (hpc : st.threads c = .idle) (o : Op K V) :
    StepOk h st p c (goOn st.memory st.locks (.first o)) p := by
  have hself : ThreadOk h st.memory st.locks p c .idle := hpc ▸ hinv.threads c
  exact hinv.load hpc { hself with } (fun n hn => (by cases hn)) (fun n hn => (by cases hn))
    ⟨rfl, rfl, rfl⟩ ⟨rfl, rfl⟩ rfl

/-- `(root->next).load()`. -/
theorem Inv.first (hinv : Inv h st p) (hpc : st.threads c = .first o) :
    StepOk h st p c (goOn st.memory st.locks (.search o (st.memory.next root))) p := by
  have hself : ThreadOk h st.memory st.locks p c (.first o) := hpc ▸ hinv.threads c
  have hroot := hinv.listing.alloc root hinv.listing.root_mem
  have hnext := hinv.listing.next root hroot (by decide)
  refine hinv.load hpc { hself with nexts := List.forall_mem_singleton.mpr hnext } ?_ (fun n hn => by cases hn)
    ⟨rfl, rfl, rfl⟩ ⟨rfl, rfl⟩ rfl
  exact fun n hn => .inr ⟨root, hroot, (List.mem_singleton.mp hn).symm⟩

/-- A round of the loop of `find_location`. -/
theorem Inv.search (hinv : Inv h st p) (hpc : st.threads c = .search o next) :
    StepOk h st p c (goOn st.memory st.locks
      (if st.memory.isEnd next = true ∨ ¬ st.memory.key next < o.key then .back o next
        else .search o (st.memory.next next))) p := by
  have hself : ThreadOk h st.memory st.locks p c (.search o next) := hpc ▸ hinv.threads c
  obtain ⟨halloc, -⟩ := hself.nexts next (List.mem_singleton_self _)
  split
  · exact hinv.load hpc { hself with } (fun n hn => .inl hn) (fun n hn => (by cases hn)) ⟨rfl, rfl, rfl⟩ ⟨rfl, rfl⟩ rfl
  · rename_i hgo
    have htail : next ≠ tail := by
      rintro rfl
      exact hgo (.inl ((hinv.listing.isEnd tail halloc).mpr (.inr rfl)))
    have hnext := hinv.listing.next next halloc htail
    refine hinv.load hpc { hself with nexts := List.forall_mem_singleton.mpr hnext } ?_ (fun n hn => by cases hn)
      ⟨rfl, rfl, rfl⟩ ⟨rfl, rfl⟩ rfl
    exact fun n hn => .inr ⟨next, halloc, (List.mem_singleton.mp hn).symm⟩

omit [DecidableEq ι] in
/-- Where an operation goes on after the load of `prev`. -/
theorem Op.located_cases (o : Op K V) (m : Memory K V) (prev next : Nat) :
    o.located m prev next = .first o ∨ o.located m prev next = .readNext o prev next ∨
      o.located m prev next = .acquire o prev next ∧ o.Fits m prev next := by
  cases o with
  | insert k v =>
      simp only [Op.located, Op.Fits]
      split
      · exact .inr (.inl rfl)
      · rename_i hnew
        split
        · rename_i hprev
          refine .inr (.inr ⟨rfl, hprev, ?_⟩)
          simpa [or_iff_not_imp_left] using hnew
        · exact .inl rfl
  | remove k =>
      simp only [Op.located, Op.Fits]
      split
      · exact .inr (.inl rfl)
      · rename_i hfound
        exact .inr (.inr ⟨rfl, by simpa using (not_or.mp hfound).1⟩)

/-- `(next->prev).load()`. -/
theorem Inv.back (hinv : Inv h st p) (hpc : st.threads c = .back o next) :
    StepOk h st p c (goOn st.memory st.locks (o.located st.memory (st.memory.prev next) next)) p := by
  have hself : ThreadOk h st.memory st.locks p c (.back o next) := hpc ▸ hinv.threads c
  obtain ⟨halloc, hroot⟩ := hself.nexts next (List.mem_singleton_self _)
  have hprev := List.forall_mem_singleton.mpr (hinv.listing.prev next halloc hroot)
  have hprevs : ∀ n ∈ [st.memory.prev next],
      n ∈ (Pc.back o next).prevs ∨ ∃ a, Alloc st.memory a ∧ st.memory.prev a = n :=
    fun n hn => .inr ⟨next, halloc, (List.mem_singleton.mp hn).symm⟩
  obtain heq | heq | ⟨heq, hfits⟩ := o.located_cases st.memory (st.memory.prev next) next
  · rw [heq]
    exact hinv.load hpc { hself with nexts := fun n hn => (by cases hn) } (fun n hn => (by cases hn))
      (fun n hn => (by cases hn)) ⟨rfl, rfl, rfl⟩ ⟨rfl, rfl⟩ rfl
  · rw [heq]
    exact hinv.load hpc { hself with prevs := hprev } (fun n hn => .inl hn) hprevs ⟨rfl, rfl, rfl⟩ ⟨rfl, rfl⟩ rfl
  · rw [heq]
    exact hinv.load hpc { hself with prevs := hprev, fits := hfits } (fun n hn => .inl hn) hprevs
      ⟨rfl, rfl, rfl⟩ ⟨rfl, rfl⟩ rfl

omit [DecidableEq ι] in
/-- A thread that executes no operation. -/
theorem ThreadOk.idle {m : Memory K V} {locks : Nat → Option ι} (hfree : ∀ a, locks a ≠ some c) :
    ThreadOk h m locks p c .idle where
  nexts _ hn := by cases hn
  prevs _ hn := by cases hn
  held a := iff_of_false (hfree a) List.not_mem_nil
  nodup := List.nodup_nil
  alloc _ hn := by cases hn
  links _ hl := by cases hl
  begun _ hl := by cases hl
  fromLock _ hn := by cases hn
  live _ hn := by cases hn
  marked _ hn := by cases hn
  hidden _ hn := by cases hn
  unlinked _ hn := by cases hn
  built := trivial
  fits := trivial

omit [DecidableEq ι] in
/-- All that a thread knows when its critical sections end. -/
theorem ThreadOk.release {m : Memory K V} {locks : Nat → Option ι} {held : List Nat} {done : Bool}
    (hheld : ∀ a, locks a = some c ↔ a ∈ held) (hnodup : held.Nodup) (halloc : ∀ a ∈ held, Alloc m a) :
    ThreadOk h m locks p c (.release o held done) :=
  have hidle : ThreadOk h m (fun _ => none) p c .idle := ThreadOk.idle fun a ha => by cases ha
  { hidle with
    held := hheld
    nodup := hnodup
    alloc := halloc
    hidden := fun n hn => (by cases hn) }

/-- A thread that ends its operation, or begins its next attempt. -/
theorem Inv.leave (hinv : Inv h st p) (hpc : st.threads c = pc) (hheld : pc.held = [])
    (hclosed : pc.unlinked = [] ∧ pc.marked = [] ∧ pc.unpaired = []) (hpc' : pc' = .idle ∨ pc' = .first o) :
    StepOk h st p c (goOn st.memory st.locks pc') p := by
  have hself : ThreadOk h st.memory st.locks p c pc := hpc ▸ hinv.threads c
  have hidle : ThreadOk h st.memory st.locks p c .idle := ThreadOk.idle fun a ha => by
    have hmem := (hself.held a).mp ha
    rw [hheld] at hmem
    cases hmem
  obtain rfl | rfl := hpc'
  · exact hinv.load hpc hidle (fun n hn => (by cases hn)) (fun n hn => (by cases hn))
      hclosed ⟨rfl, rfl⟩ hheld.symm
  · exact hinv.load hpc { hidle with } (fun n hn => (by cases hn)) (fun n hn => (by cases hn))
      hclosed ⟨rfl, rfl⟩ hheld.symm

/-- A thread that goes to the end of its critical sections. -/
theorem Inv.giveUp (hinv : Inv h st p) (hpc : st.threads c = pc)
    (hclosed : pc.unlinked = [] ∧ pc.marked = [] ∧ pc.unpaired = []) (done : Bool) :
    StepOk h st p c (goOn st.memory st.locks (.release o pc.held done)) p := by
  have hself : ThreadOk h st.memory st.locks p c pc := hpc ▸ hinv.threads c
  exact hinv.load hpc (ThreadOk.release hself.held hself.nodup hself.alloc) (fun n hn => (by cases hn))
    (fun n hn => (by cases hn)) hclosed ⟨rfl, rfl⟩ rfl

/-- `prev->next.load() == next` in a `read_lock`. -/
theorem Inv.readNext (hinv : Inv h st p) (hpc : st.threads c = .readNext o prev next) :
    StepOk h st p c (goOn st.memory st.locks
      (if st.memory.next prev = next then .readRemoved o prev next else .first o)) p := by
  have hself : ThreadOk h st.memory st.locks p c (.readNext o prev next) := hpc ▸ hinv.threads c
  split
  · exact hinv.load hpc { hself with } (fun n hn => .inl hn) (fun n hn => .inl hn) ⟨rfl, rfl, rfl⟩ ⟨rfl, rfl⟩ rfl
  · exact hinv.leave hpc rfl ⟨rfl, rfl, rfl⟩ (.inr rfl)

/-- `!prev->removed.load()` in a `read_lock`. -/
theorem Inv.readRemoved (hinv : Inv h st p) (hpc : st.threads c = .readRemoved o prev next) :
    StepOk h st p c (goOn st.memory st.locks (if st.memory.removed prev = false then .idle else .first o)) p := by
  split
  · exact hinv.leave hpc rfl ⟨rfl, rfl, rfl⟩ (.inl rfl) (o := o)
  · exact hinv.leave hpc rfl ⟨rfl, rfl, rfl⟩ (.inr rfl)

/-- `prev->removed.load()` in a critical section. -/
theorem Inv.testRemoved (hinv : Inv h st p) (hpc : st.threads c = .testRemoved o prev next) :
    StepOk h st p c (goOn st.memory st.locks
      (if st.memory.removed prev = false then .testNext o prev next else .release o [prev] false)) p := by
  have hself : ThreadOk h st.memory st.locks p c (.testRemoved o prev next) := hpc ▸ hinv.threads c
  split
  · rename_i hlive
    exact hinv.load hpc { hself with live := List.forall_mem_singleton.mpr hlive } (fun n hn => .inl hn)
      (fun n hn => .inl hn) ⟨rfl, rfl, rfl⟩ ⟨rfl, rfl⟩ rfl
  · exact hinv.giveUp hpc ⟨rfl, rfl, rfl⟩ false

/-- A node that a thread knows is in the list if it is not removed. -/
theorem Inv.mem_of_live (hinv : Inv h st p) (hpc : st.threads c = pc) (ha : a ∈ pc.prevs) (hunlinked : pc.unlinked = [])
    (hlive : st.memory.removed a = false) : a ∈ p := by
  subst hpc
  refine (hinv.listing.live a ((hinv.threads c).prevs a ha) hlive).resolve_right fun hun => ?_
  obtain ⟨c', hun⟩ := hun
  by_cases hc : c' = c
  · subst hc
    rw [hunlinked] at hun
    cases hun
  · exact (hinv.apart c' c (Ne.symm hc)).hidden a (Pc.hidden_of_unlinked hun) ha

/-- `(prev->next).load() == next` in a critical section. -/
theorem Inv.testNext (hinv : Inv h st p) (hpc : st.threads c = .testNext o prev next) :
    StepOk h st p c (goOn st.memory st.locks
      (if st.memory.next prev = next then o.locked prev next else .release o [prev] false)) p := by
  have hself : ThreadOk h st.memory st.locks p c (.testNext o prev next) := hpc ▸ hinv.threads c
  have hlive := hself.live prev (List.mem_singleton_self _)
  split
  · rename_i hnext
    have hmem : prev ∈ p := hinv.mem_of_live hpc (List.mem_singleton_self _) rfl hlive
    have hlinks : ∀ l ∈ [(prev, next)], l.1 ∈ p ∧ st.memory.next l.1 = l.2 :=
      List.forall_mem_singleton.mpr ⟨hmem, hnext⟩
    have hbegun := (hself.fromLock prev (List.mem_singleton_self _)).heldAt hlive hnext
    cases o with
    | insert k v =>
        exact hinv.load hpc
          { hself with
            links := hlinks
            begun := List.forall_mem_singleton.mpr hbegun
            fromLock := fun n hn => (by cases hn)
            live := fun n hn => (by cases hn) }
          (fun n hn => .inl hn) (fun n hn => .inl hn) ⟨rfl, rfl, rfl⟩ ⟨rfl, rfl⟩ rfl
    | remove k =>
        exact hinv.load hpc
          { hself with
            links := hlinks
            fromLock := fun n hn => (by cases hn)
            live := fun n hn => (by cases hn) }
          (fun n hn => .inl hn) (fun n hn => .inl hn) ⟨rfl, rfl, rfl⟩ ⟨rfl, rfl⟩ rfl
  · exact hinv.giveUp hpc ⟨rfl, rfl, rfl⟩ false

omit [DecidableEq ι] in
/-- Only one thread has locked the node before a given one. -/
theorem Inv.eq_of_link {w w' : Nat} (hinv : Inv h st p) (hpc : st.threads c = pc) (hw : w ∈ pc.held)
    (hlink : (w, a) ∈ pc.links) (hw' : w' ∈ (st.threads c').held) (hlink' : (w', a) ∈ (st.threads c').links)
    (ha : Alloc st.memory a) : c' = c := by
  subst hpc
  have hl := (hinv.threads c).links _ hlink
  have hl' := (hinv.threads c').links _ hlink'
  obtain rfl := hinv.listing.eq_of_next hl.1 hl'.1 ha hl.2 hl'.2
  exact Option.some.inj ((((hinv.threads c').held w).mpr hw').symm.trans (((hinv.threads c).held w).mpr hw))

/-- `(loc->next).load()`. -/
theorem Inv.loadNext (hinv : Inv h st p) (hpc : st.threads c = .loadNext k prev loc) :
    StepOk h st p c (goOn st.memory st.locks (.mark k prev loc (st.memory.next loc))) p := by
  have hself : ThreadOk h st.memory st.locks p c (.loadNext k prev loc) := hpc ▸ hinv.threads c
  obtain ⟨halloc, hroot⟩ := hself.nexts loc (List.mem_singleton_self _)
  have hlink : prev ∈ p ∧ st.memory.next prev = loc := hself.links (prev, loc) (List.mem_singleton_self _)
  have hloc := hinv.listing.mem_of_next hlink.1 halloc hlink.2
  have hend : st.memory.isEnd loc = false := hself.fits
  have htail : loc ≠ tail := by
    rintro rfl
    rw [(hinv.listing.isEnd tail halloc).mpr (.inr rfl)] at hend
    cases hend
  have hlive : st.memory.removed loc = false := by
    rw [Bool.eq_false_iff]
    intro hremoved
    -- only this thread could have marked `loc`
    obtain ⟨c', hc'⟩ := hinv.listing.removed loc hloc hremoved
    obtain ⟨w, hw, hlink'⟩ := Pc.link_of_marked hc'
    have hc : c' = c := hinv.eq_of_link hpc (List.mem_cons_of_mem _ (List.mem_singleton_self prev))
      (List.mem_singleton_self _) hw hlink' halloc
    rw [hc, hpc] at hc'
    cases hc'
  have hbegun := (hself.fromLock loc (List.mem_singleton_self _)).heldAt hlive rfl
  refine hinv.load hpc
    { hself with
      nexts := List.forall_mem_cons.mpr ⟨⟨halloc, hroot⟩,
        List.forall_mem_singleton.mpr (hinv.listing.next loc halloc htail)⟩
      links := List.forall_mem_cons.mpr ⟨hlink, List.forall_mem_singleton.mpr ⟨hloc, rfl⟩⟩
      begun := List.forall_mem_singleton.mpr hbegun
      fromLock := fun n hn => (by cases hn)
      fits := trivial } ?_ (fun n hn => .inl hn) ⟨rfl, rfl, rfl⟩ ⟨rfl, rfl⟩ rfl
  refine List.forall_mem_cons.mpr ⟨.inl (List.mem_singleton_self _), List.forall_mem_singleton.mpr ?_⟩
  exact .inr ⟨loc, halloc, rfl⟩

/-! ## Locks -/

/-- A lock is acquired. -/
theorem Inv.lock (hinv : Inv h st p) (hpc : st.threads c = pc) (hfree : st.locks a = none)
    (hself : ThreadOk (h ++ [.acquire c a st.memory]) st.memory (Function.update st.locks a (some c)) p c pc')
    (ha : a ∈ pc.prevs ∨ a ∈ pc.nexts ∧ ∃ w ∈ pc.held, (w, a) ∈ pc.links)
    (hclosed : pc.unlinked = [] ∧ pc.marked = [] ∧ pc.unpaired = []) (hviews : pc'.hidden = [] ∧ pc'.unlinked = [])
    (hknown : pc'.nexts = pc.nexts ∧ pc'.prevs = pc.prevs) :
    StepOk h st p c ⟨st.memory, Function.update st.locks a (some c), some (.acquire c a st.memory), pc'⟩ p := by
  subst hpc
  obtain ⟨hhidden', hunlinked'⟩ := hviews
  refine ⟨hinv.listing_of_closed hclosed, hself, ?_, fun e he => (by cases he; rfl), fun x he => by cases he⟩
  constructor
  case others =>
    intro c' hc b
    show Function.update st.locks a (some c) b = some c' ↔ _
    by_cases hb : b = a
    · rw [hb, Function.update_self, hfree]
      simp [Ne.symm hc]
    · rw [Function.update_of_ne hb]
  case acquired =>
    intro b hlock
    have hlock : Function.update st.locks a (some c) b = some c := hlock
    by_cases hb : b = a
    · exact .inr (hb ▸ ha)
    · rw [Function.update_of_ne hb] at hlock
      exact .inl hlock
  case nexts_from =>
    intro n hn
    rw [hknown.1] at hn
    exact .inl hn
  case prevs_from =>
    intro n hn
    rw [hknown.2] at hn
    exact .inl hn
  case hidden_from => simp [hhidden']
  case unlinked_from => simp [hunlinked']
  all_goals simp +contextual

omit [LinearOrder K] [DecidableEq ι] in
/-- The locks that a thread holds when it has acquired another one. -/
theorem held_cons {locks : Nat → Option ι} {held : List Nat} (hheld : ∀ b, locks b = some c ↔ b ∈ held)
    (b : Nat) : Function.update locks a (some c) b = some c ↔ b ∈ a :: held := by
  by_cases hb : b = a
  · simp [hb]
  · simp [hb, hheld]

/-- `prev->try_lock`. -/
theorem Inv.acquire (hinv : Inv h st p) (hpc : st.threads c = .acquire o prev next) (hfree : st.locks prev = none) :
    StepOk h st p c ⟨st.memory, Function.update st.locks prev (some c), some (.acquire c prev st.memory),
      .testRemoved o prev next⟩ p := by
  have hself : ThreadOk h st.memory st.locks p c (.acquire o prev next) := hpc ▸ hinv.threads c
  have halloc := hself.prevs prev (List.mem_singleton_self _)
  have hlisted : st.memory.removed prev = false → Listed st.memory prev := fun hlive =>
    hinv.listing.listed (hinv.mem_of_live hpc (List.mem_singleton_self _) rfl hlive)
  have hlock : FromLock (h ++ [.acquire c prev st.memory]) st.memory c prev :=
    ⟨h, [], st.memory, rfl, List.not_mem_nil, rfl, hlisted⟩
  refine hinv.lock hpc hfree ?_ (.inl (List.mem_singleton_self _)) ⟨rfl, rfl, rfl⟩ ⟨rfl, rfl⟩ ⟨rfl, rfl⟩
  exact
    { nexts := hself.nexts
      prevs := hself.prevs
      held := held_cons hself.held
      nodup := List.nodup_singleton _
      alloc := List.forall_mem_singleton.mpr halloc
      links := fun l hl => (by cases hl)
      begun := fun l hl => (by cases hl)
      fromLock := List.forall_mem_singleton.mpr hlock
      live := fun n hn => (by cases hn)
      marked := fun n hn => (by cases hn)
      hidden := fun n hn => (by cases hn)
      unlinked := fun n hn => (by cases hn)
      built := trivial
      fits := hself.fits }

/-- `loc->try_lock`. -/
theorem Inv.acquireLoc (hinv : Inv h st p) (hpc : st.threads c = .acquireLoc k prev loc)
    (hfree : st.locks loc = none) :
    StepOk h st p c ⟨st.memory, Function.update st.locks loc (some c), some (.acquire c loc st.memory),
      .loadNext k prev loc⟩ p := by
  have hself : ThreadOk h st.memory st.locks p c (.acquireLoc k prev loc) := hpc ▸ hinv.threads c
  obtain ⟨halloc, -⟩ := hself.nexts loc (List.mem_singleton_self _)
  have hlink : prev ∈ p ∧ st.memory.next prev = loc := hself.links (prev, loc) (List.mem_singleton_self _)
  have hlisted := hinv.listing.listed (hinv.listing.mem_of_next hlink.1 halloc hlink.2)
  have hlock : FromLock (h ++ [.acquire c loc st.memory]) st.memory c loc :=
    ⟨h, [], st.memory, rfl, List.not_mem_nil, rfl, fun _ => hlisted⟩
  have hne : loc ∉ [prev] := by
    intro hmem
    rw [(hself.held loc).mpr hmem] at hfree
    cases hfree
  refine hinv.lock hpc hfree ?_ (.inr ⟨List.mem_singleton_self _, prev, List.mem_singleton_self _,
    List.mem_singleton_self _⟩) ⟨rfl, rfl, rfl⟩ ⟨rfl, rfl⟩ ⟨rfl, rfl⟩
  exact
    { nexts := hself.nexts
      prevs := hself.prevs
      held := held_cons hself.held
      nodup := List.nodup_cons.mpr ⟨hne, hself.nodup⟩
      alloc := List.forall_mem_cons.mpr ⟨halloc, hself.alloc⟩
      links := hself.links
      begun := fun l hl => (by cases hl)
      fromLock := List.forall_mem_singleton.mpr hlock
      live := fun n hn => (by cases hn)
      marked := fun n hn => (by cases hn)
      hidden := fun n hn => (by cases hn)
      unlinked := fun n hn => (by cases hn)
      built := trivial
      fits := hself.fits }

/-- The end of a critical section. -/
theorem Inv.release {rest : List Nat} {done : Bool} (hinv : Inv h st p)
    (hpc : st.threads c = .release o (a :: rest) done) :
    StepOk h st p c ⟨st.memory, Function.update st.locks a none, some (.release c a), .release o rest done⟩ p := by
  have hself : ThreadOk h st.memory st.locks p c (.release o (a :: rest) done) := hpc ▸ hinv.threads c
  have hheld : st.locks a = some c := (hself.held a).mpr List.mem_cons_self
  have hnodup : a ∉ rest ∧ rest.Nodup := List.nodup_cons.mp hself.nodup
  refine ⟨hinv.listing_of_closed (by rw [hpc]; exact ⟨rfl, rfl, rfl⟩), ThreadOk.release (fun b => ?_) hnodup.2
    fun b hb => hself.alloc b (List.mem_cons_of_mem a hb), ?_, fun e he => (by cases he; rfl), fun x he => by cases he⟩
  · show Function.update st.locks a none b = some c ↔ b ∈ rest
    by_cases hb : b = a
    · rw [hb, Function.update_self]
      exact iff_of_false (fun hnone => by cases hnone) hnodup.1
    · rw [Function.update_of_ne hb, hself.held b]
      exact List.mem_cons.trans (or_iff_right hb)
  · constructor
    case others =>
      intro c' hc b
      show Function.update st.locks a none b = some c' ↔ _
      by_cases hb : b = a
      · rw [hb, Function.update_self, hheld]
        simp [Ne.symm hc]
      · rw [Function.update_of_ne hb]
    case acquired =>
      intro b hlock
      have hlock : Function.update st.locks a none b = some c := hlock
      by_cases hb : b = a
      · rw [hb, Function.update_self] at hlock
        cases hlock
      · rw [Function.update_of_ne hb] at hlock
        exact .inl hlock
    case nexts_from => exact fun n hn => by cases hn
    case prevs_from => exact fun n hn => by cases hn
    case hidden_from => exact fun n hn => by cases hn
    case unlinked_from => exact fun n hn => by cases hn
    all_goals simp +contextual

end

end Verlib.DList.Concurrent
