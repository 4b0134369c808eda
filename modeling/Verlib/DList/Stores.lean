import Verlib.DList.Steps

/-!
# The stores of a thread

The six stores in the critical sections of `try_insert` and `try_remove`.
-/

namespace Verlib.DList.Concurrent

open Interleaving Linked

variable {K V ι : Type} [LinearOrder K] [DecidableEq ι] {h : List (Event K V ι)} {st : State K V ι} {p p' : List Nat}
  {c : ι} {k : K} {v : V} {w x prev next loc new : Nat} {m' : Memory K V} {o : Op K V} {pc pc' : Pc K V}

/-- A store that is not to a `prev`. -/
theorem Inv.store (hpc : st.threads c = pc) (hlisting : Listing m' p' (Function.update st.threads c pc'))
    (hself : ThreadOk h m' st.locks p' c pc') (hext : Ext c st.memory m' st.locks st.locks p p' pc pc') :
    StepOk h st p c (goOn m' st.locks pc') p' := by
  subst hpc
  refine ⟨hlisting, ?_, hext, fun e he => (by cases he), fun x he => by cases he⟩
  show ThreadOk (h ++ []) _ _ _ _ _
  rwa [List.append_nil]

omit [DecidableEq ι] in
/-- Nobody has the lock of a node that is not allocated. -/
theorem Inv.lock_fresh (hinv : Inv h st p) : st.locks st.memory.fresh = none := by
  cases hlock : st.locks st.memory.fresh with
  | none => rfl
  | some c =>
      have hok := hinv.threads c
      exact absurd rfl (alloc_ne_fresh (hok.alloc _ ((hok.held _).mp hlock)))

/-- `New<node>(k, v, next, prev)`. -/
theorem Inv.newNode (hinv : Inv h st p) (hpc : st.threads c = .newNode k v prev next) :
    StepOk h st p c (goOn (st.memory.newNode k v next prev) st.locks (.linkNext k v prev next st.memory.fresh)) p := by
  have hself : ThreadOk h st.memory st.locks p c (.newNode k v prev next) := hpc ▸ hinv.threads c
  have hnext := hself.nexts next (List.mem_singleton_self _)
  have hprev := hself.prevs prev (List.mem_singleton_self _)
  have hlink : prev ∈ p ∧ st.memory.next prev = next := hself.links (prev, next) (List.mem_singleton_self _)
  have hpos : 0 < st.memory.fresh := hnext.1.1.trans hnext.1.2
  have hsame : ∀ {β : Type} (f : Nat → β) (y : β) (a : Nat), Alloc st.memory a →
      Function.update f st.memory.fresh y a = f a := fun f y a ha => Function.update_of_ne (alloc_ne_fresh ha) ..
  have hgrow : ∀ {a}, Alloc st.memory a → Alloc (st.memory.newNode k v next prev) a := fun ha =>
    ha.mono (Nat.le_succ _)
  have hold : ∀ {a}, Alloc (st.memory.newNode k v next prev) a → Alloc st.memory a ∨ a = st.memory.fresh :=
    fun {a} ha => (Nat.lt_succ_iff_lt_or_eq.mp ha.2).imp_left fun hlt => ⟨ha.1, hlt⟩
  have hspine : Listing (st.memory.newNode k v next prev) p
      (Function.update st.threads c (.linkNext k v prev next st.memory.fresh)) := by
    refine (hinv.listing.newNode hprev hnext.1 hnext.2 (fun a ha => ?_)).mono (fun a ha => ha)
      (fun a ha => exists_update ha ?_) fun l hl => exists_update hl ?_
    · obtain ha | rfl := ha
      · refine exists_update ha ?_
        rw [hpc]
        exact fun ha => by cases ha
      · exact exists_update_self (List.mem_singleton_self _)
    · rw [hpc]
      exact fun ha => by cases ha
    · rw [hpc]
      exact fun hl => by cases hl
  have hunseen : ∀ a, Alloc (st.memory.newNode k v next prev) a →
      Function.update st.memory.prev st.memory.fresh prev a ≠ st.memory.fresh ∧
        Function.update st.memory.next st.memory.fresh next a ≠ st.memory.fresh := by
    intro a ha
    obtain ha | rfl := hold ha
    · rw [hsame _ _ a ha, hsame _ _ a ha]
      constructor
      · by_cases hroot : a = root
        · rw [hroot, hinv.listing.prev_root]
          exact hpos.ne
        · exact alloc_ne_fresh (hinv.listing.prev a ha hroot)
      · by_cases htail : a = tail
        · rw [htail, hinv.listing.next_tail]
          exact hpos.ne
        · exact alloc_ne_fresh (hinv.listing.next a ha htail).1
    · rw [Function.update_self, Function.update_self]
      exact ⟨alloc_ne_fresh hprev, alloc_ne_fresh hnext.1⟩
  have hfits : Pc.Fits (st.memory.newNode k v next prev) (.newNode k v prev next) := hself.fits.congr
    (fun a ha => ⟨hsame _ _ a (hself.nexts a ha).1, hsame _ _ a (hself.nexts a ha).1⟩)
    fun a ha => ⟨hsame _ _ a (hself.prevs a ha), hsame _ _ a (hself.prevs a ha)⟩
  refine Inv.store hpc hspine ?_ ?_
  · exact
      { nexts := List.forall_mem_singleton.mpr ⟨hgrow hnext.1, hnext.2⟩
        prevs := List.forall_mem_cons.mpr ⟨hgrow hprev, List.forall_mem_singleton.mpr ⟨hpos, Nat.lt_succ_self _⟩⟩
        held := hself.held
        nodup := hself.nodup
        alloc := fun a ha => hgrow (hself.alloc a ha)
        links := List.forall_mem_singleton.mpr ⟨hlink.1, (hsame _ _ prev hprev).trans hlink.2⟩
        begun := hself.begun
        fromLock := fun n hn => (by cases hn)
        live := fun n hn => (by cases hn)
        marked := fun n hn => (by cases hn)
        hidden := List.forall_mem_singleton.mpr ⟨hinv.lock_fresh, fun a ha => (hunseen a ha).1⟩
        unlinked := List.forall_mem_singleton.mpr
          ⟨fun hmem => alloc_ne_fresh (hinv.listing.alloc _ hmem) rfl, fun a ha => (hunseen a ha).2⟩
        built := ⟨Function.update_self .., Function.update_self .., Function.update_self .., Function.update_self ..,
          Function.update_self ..⟩
        fits := hfits }
  · constructor
    case fresh => exact Nat.le_succ _
    case key => exact fun a ha => ⟨hsame _ _ a ha, hsame _ _ a ha⟩
    case fields => exact fun a ha => .inr ⟨hsame _ _ a ha, hsame _ _ a ha⟩
    case prev => exact fun a ha => .inr (hsame _ _ a ha)
    case stay => exact fun a ha => .inr ha
    case joined => exact fun a ha => .inl ha
    case others => exact fun c' hc a => Iff.rfl
    case acquired => exact fun a ha => .inl ha
    case next_from =>
      intro a ha
      obtain ha | rfl := hold ha
      · exact .inr (.inr ⟨ha, hsame _ _ a ha⟩)
      · exact .inl (List.mem_singleton.mpr (Function.update_self ..))
    case prev_from =>
      intro a ha
      obtain ha | rfl := hold ha
      · exact .inr ⟨ha, hsame _ _ a ha⟩
      · exact .inl (List.mem_singleton.mpr (Function.update_self ..))
    case nexts_from => exact fun n hn => .inl hn
    case prevs_from =>
      refine List.forall_mem_cons.mpr ⟨.inl (List.mem_singleton_self _), List.forall_mem_singleton.mpr ?_⟩
      exact .inr (.inr le_rfl)
    case hidden_from => exact List.forall_mem_singleton.mpr (.inr le_rfl)
    case unlinked_from => exact List.forall_mem_singleton.mpr le_rfl

omit [LinearOrder K] [DecidableEq ι] in
/-- A store is to `next` or `removed` of a node that the thread has locked, or to `prev` of a node that it has found. -/
theorem Ext.of_store {m : Memory K V} {locks : Nat → Option ι}
    (hmemory : m'.fresh = m.fresh ∧ m'.key = m.key ∧ m'.isEnd = m.isEnd)
    (hnext : ∀ a, m'.next a = m.next a ∨ locks a = some c ∧ (m'.next a ∈ pc.nexts ∨ m'.next a ∈ pc.prevs))
    (hremoved : ∀ a, m'.removed a = m.removed a ∨ locks a = some c)
    (hprev : ∀ a, m'.prev a = m.prev a ∨ a ∈ pc.nexts ∧ m'.prev a ∈ pc.prevs)
    (hstay : ∀ a ∈ p, locks a = some c ∨ a ∈ p') (hjoined : ∀ a ∈ p', a ∈ p ∨ a ∈ pc.prevs)
    (hviews : pc'.nexts ⊆ pc.nexts ∧ pc'.prevs ⊆ pc.prevs ∧ pc'.hidden ⊆ pc.hidden ∧ pc'.unlinked = []) :
    Ext c m m' locks locks p p' pc pc' := by
  obtain ⟨hfresh, hkey, hend⟩ := hmemory
  obtain ⟨hnexts, hprevs, hhidden, hunlinked⟩ := hviews
  have halloc : ∀ {a}, Alloc m' a → Alloc m a := fun ha => ha.mono hfresh.le
  constructor
  case fresh => exact hfresh.ge
  case key => exact fun a _ => ⟨congrFun hkey a, congrFun hend a⟩
  case fields =>
    intro a _
    obtain hnext | ⟨hlock, -⟩ := hnext a
    · exact (hremoved a).symm.imp_right fun hremoved => ⟨hnext, hremoved⟩
    · exact .inl hlock
  case prev => exact fun a _ => (hprev a).symm.imp_left And.left
  case stay => exact hstay
  case joined => exact hjoined
  case others => exact fun c' _ a => Iff.rfl
  case acquired => exact fun a ha => .inl ha
  case next_from =>
    intro a ha
    obtain hnext | ⟨-, hfrom⟩ := hnext a
    · exact .inr (.inr ⟨halloc ha, hnext⟩)
    · exact hfrom.imp_right .inl
  case prev_from => exact fun a ha => (hprev a).symm.imp And.right fun hprev => ⟨halloc ha, hprev⟩
  case nexts_from => exact fun n hn => .inl (hnexts hn)
  case prevs_from => exact fun n hn => .inl (hprevs hn)
  case hidden_from => exact fun n hn => .inl (hhidden hn)
  case unlinked_from =>
    rw [hunlinked]
    exact fun n hn => by cases hn

/-- A store to one field. -/
theorem update_cases {β : Type} (f : Nat → β) (w : Nat) (y : β) (a : Nat) :
    Function.update f w y a = f a ∨ a = w ∧ Function.update f w y a = y := by
  by_cases ha : a = w
  · exact .inr ⟨ha, by rw [ha, Function.update_self]⟩
  · exact .inl (Function.update_of_ne ha ..)

omit [DecidableEq ι] in
/-- The new node belongs between the two nodes. -/
theorem Inv.below_new (hinv : Inv h st p) (hpc : st.threads c = .linkNext k v prev next new) :
    Below st.memory prev new ∧ Below st.memory new next := by
  have hself : ThreadOk h st.memory st.locks p c (.linkNext k v prev next new) := hpc ▸ hinv.threads c
  obtain ⟨halloc, hroot⟩ := hself.nexts next (List.mem_singleton_self _)
  have hnew : Alloc st.memory new := hself.prevs new (List.mem_cons_of_mem _ (List.mem_singleton_self _))
  have hlink : prev ∈ p ∧ st.memory.next prev = next := hself.links (prev, next) (List.mem_singleton_self _)
  have htail := hinv.listing.ne_tail halloc hlink.2
  obtain ⟨-, -, hkey, hnend, -⟩ := hself.built
  obtain ⟨hkprev, hknext⟩ := hself.fits
  have hend := hinv.listing.isEnd new hnew
  rw [hnend] at hend
  obtain ⟨hnroot, hntail⟩ := not_or.mp fun hor => Bool.false_ne_true (hend.mpr hor)
  constructor
  · refine ⟨htail, hnroot, hkprev.imp (fun hend => ?_) fun hlt => .inr (by rwa [hkey])⟩
    exact ((hinv.listing.isEnd prev (hinv.listing.alloc prev hlink.1)).mp hend).resolve_right htail
  · refine ⟨hntail, hroot, .inr (hknext.imp (fun hend => ?_) fun hlt => (by rwa [hkey]))⟩
    exact ((hinv.listing.isEnd next halloc).mp hend).resolve_left hroot

/-- `prev->next = new_node`. -/
theorem Inv.linkNext (hinv : Inv h st p) (hpc : st.threads c = .linkNext k v prev next new) :
    ∃ p', StepOk h st p c (goOn (st.memory.setNext prev new) st.locks (.linkPrev k v prev next new)) p' := by
  have hself : ThreadOk h st.memory st.locks p c (.linkNext k v prev next new) := hpc ▸ hinv.threads c
  obtain ⟨halloc, hroot⟩ := hself.nexts next (List.mem_singleton_self _)
  have hnew : Alloc st.memory new := hself.prevs new (List.mem_cons_of_mem _ (List.mem_singleton_self _))
  have hlink : prev ∈ p ∧ st.memory.next prev = next := hself.links (prev, next) (List.mem_singleton_self _)
  have htail := hinv.listing.ne_tail halloc hlink.2
  have hheld : st.locks prev = some c := (hself.held prev).mpr (List.mem_singleton_self _)
  obtain ⟨hnot, hunseen⟩ := hself.unlinked new (List.mem_singleton_self _)
  obtain ⟨hnext, hprev, -, -, hremoved⟩ := hself.built
  obtain ⟨hbelow, hbelow'⟩ := hinv.below_new hpc
  have hne : new ≠ prev := fun heq => hnot (heq ▸ hlink.1)
  have hspine : ∃ p', Listing (st.memory.setNext prev new) p'
      (Function.update st.threads c (.linkPrev k v prev next new)) ∧ ∀ a, a ∈ p' ↔ a ∈ p ∨ a = new := by
    refine (hinv.listing.mono (fun a ha => ha) (fun a ha => exists_update ha ?_) fun l hl => hl).linkNext hlink.1 htail
      hnew hnot (hnext.trans hlink.2.symm) hprev hbelow (hlink.2.symm ▸ hbelow') hremoved
      (fun a ha hane => exists_update ha ?_) fun l hl => ?_
    · rw [hpc]
      exact fun ha => by cases ha
    · rw [hpc]
      exact fun ha => absurd (List.mem_singleton.mp ha) hane
    · obtain hl | rfl := hl
      · refine exists_update hl ?_
        rw [hpc]
        exact fun hl => by cases hl
      · rw [hlink.2]
        exact exists_update_self (List.mem_singleton_self _)
  obtain ⟨p', hspine, hmem⟩ := hspine
  refine ⟨p', Inv.store hpc hspine ?_ ?_⟩
  · have hlinks : ∀ l ∈ [(prev, new), (new, next)], l.1 ∈ p' ∧ Function.update st.memory.next prev new l.1 = l.2 := by
      refine List.forall_mem_cons.mpr ⟨⟨(hmem prev).mpr (.inl hlink.1), Function.update_self ..⟩,
        List.forall_mem_singleton.mpr ⟨(hmem new).mpr (.inr rfl), ?_⟩⟩
      exact (Function.update_of_ne hne ..).trans hnext
    exact
      { hself with
        links := hlinks
        fromLock := fun n hn => (by cases hn)
        live := fun n hn => (by cases hn)
        marked := fun n hn => (by cases hn)
        unlinked := fun n hn => (by cases hn)
        built := trivial
        fits := trivial }
  · refine Ext.of_store ⟨rfl, rfl, rfl⟩ (fun a => ?_) (fun a => .inl rfl) (fun a => .inl rfl)
      (fun a ha => .inr ((hmem a).mpr (.inl ha))) (fun a ha => ?_) ⟨List.Subset.refl _, List.Subset.refl _,
      List.Subset.refl _, rfl⟩
    · refine (update_cases st.memory.next prev new a).imp_right fun hwrite => ?_
      obtain ⟨rfl, hwrite⟩ := hwrite
      refine ⟨hheld, .inr ?_⟩
      show Function.update st.memory.next a new a ∈ _
      rw [hwrite]
      exact List.mem_cons_of_mem _ (List.mem_singleton_self _)
    · obtain ha | rfl := (hmem a).mp ha
      · exact .inl ha
      · exact .inr (List.mem_cons_of_mem _ (List.mem_singleton_self _))

/-- `loc->removed = true`. -/
theorem Inv.mark (hinv : Inv h st p) (hpc : st.threads c = .mark k prev loc next) :
    StepOk h st p c (goOn (st.memory.setRemoved loc) st.locks (.unlinkNext k prev loc next)) p := by
  have hself : ThreadOk h st.memory st.locks p c (.mark k prev loc next) := hpc ▸ hinv.threads c
  have hheld : st.locks loc = some c := (hself.held loc).mpr List.mem_cons_self
  have hspine : Listing (st.memory.setRemoved loc) p (Function.update st.threads c (.unlinkNext k prev loc next)) := by
    refine (hinv.listing.mono (fun a ha => exists_update ha ?_) (fun a ha => ha)
      fun l hl => exists_update hl ?_).mark fun a ha => ?_
    · rw [hpc]
      exact fun ha => by cases ha
    · rw [hpc]
      exact fun hl => by cases hl
    · obtain ha | rfl := ha
      · refine exists_update ha ?_
        rw [hpc]
        exact fun ha => by cases ha
      · exact exists_update_self (List.mem_singleton_self _)
  refine Inv.store hpc hspine ?_ ?_
  · exact
      { hself with
        fromLock := fun n hn => (by cases hn)
        live := fun n hn => (by cases hn)
        marked := List.forall_mem_singleton.mpr (Function.update_self ..) }
  · refine Ext.of_store ⟨rfl, rfl, rfl⟩ (fun a => .inl rfl) (fun a => ?_) (fun a => .inl rfl) (fun a ha => .inr ha)
      (fun a ha => .inl ha) ⟨List.Subset.refl _, List.Subset.refl _, List.Subset.refl _, rfl⟩
    refine (update_cases st.memory.removed loc true a).imp_right fun hwrite => ?_
    rw [hwrite.1]
    exact hheld

/-- `prev->next = next`. -/
theorem Inv.unlinkNext (hinv : Inv h st p) (hpc : st.threads c = .unlinkNext k prev loc next) :
    ∃ p', StepOk h st p c (goOn (st.memory.setNext prev next) st.locks (.unlinkPrev k prev loc next)) p' := by
  have hself : ThreadOk h st.memory st.locks p c (.unlinkNext k prev loc next) := hpc ▸ hinv.threads c
  obtain ⟨halloc, -⟩ := hself.nexts next (List.mem_cons_of_mem _ (List.mem_singleton_self _))
  have hlink : prev ∈ p ∧ st.memory.next prev = loc := hself.links (prev, loc) List.mem_cons_self
  have hlink' : loc ∈ p ∧ st.memory.next loc = next :=
    hself.links (loc, next) (List.mem_cons_of_mem _ (List.mem_singleton_self _))
  have hheld : st.locks prev = some c := (hself.held prev).mpr (List.mem_cons_of_mem _ (List.mem_singleton_self _))
  have hheld' : st.locks loc = some c := (hself.held loc).mpr List.mem_cons_self
  have hne : prev ≠ loc := fun heq => (List.nodup_cons.mp hself.nodup).1 (heq ▸ List.mem_singleton_self _)
  have hremoved := hself.marked loc (List.mem_singleton_self _)
  have hspine : ∃ p', Listing (st.memory.setNext prev (st.memory.next loc)) p'
      (Function.update st.threads c (.unlinkPrev k prev loc next)) ∧ ∀ a, a ∈ p' ↔ a ∈ p ∧ a ≠ loc := by
    refine (hinv.listing.mono (fun a ha => exists_update ha ?_) (fun a ha => ha) fun l hl => hl).unlinkNext hlink.1
      hlink'.1 hlink.2 (hinv.listing.ne_tail halloc hlink'.2) hremoved (fun a ha hane => exists_update ha ?_)
      fun l hl => ?_
    · rw [hpc]
      exact fun ha => by cases ha
    · rw [hpc]
      exact fun ha => absurd (List.mem_singleton.mp ha) hane
    · obtain hl | rfl := hl
      · refine exists_update hl ?_
        rw [hpc]
        exact fun hl => by cases hl
      · rw [hlink'.2]
        exact exists_update_self (List.mem_singleton_self _)
  obtain ⟨p', hspine, hmem⟩ := hspine
  rw [hlink'.2] at hspine
  refine ⟨p', Inv.store hpc hspine ?_ ?_⟩
  · exact
      { hself with
        links := List.forall_mem_singleton.mpr ⟨(hmem prev).mpr ⟨hlink.1, hne⟩, Function.update_self ..⟩
        fromLock := fun n hn => (by cases hn)
        live := fun n hn => (by cases hn)
        marked := fun n hn => (by cases hn)
        unlinked := fun n hn => (by cases hn) }
  · refine Ext.of_store ⟨rfl, rfl, rfl⟩ (fun a => ?_) (fun a => .inl rfl) (fun a => .inl rfl)
      (fun a ha => ?_) (fun a ha => .inl ((hmem a).mp ha).1) ⟨List.Subset.refl _, List.Subset.refl _,
      List.Subset.refl _, rfl⟩
    · refine (update_cases st.memory.next prev next a).imp_right fun hwrite => ?_
      obtain ⟨rfl, hwrite⟩ := hwrite
      refine ⟨hheld, .inl ?_⟩
      show Function.update st.memory.next a next a ∈ _
      rw [hwrite]
      exact List.mem_cons_of_mem _ (List.mem_singleton_self _)
    · by_cases hloc : a = loc
      · exact .inl (hloc ▸ hheld')
      · exact .inr ((hmem a).mpr ⟨ha, hloc⟩)

/-- `next->prev = new_node` and `next->prev = prev`. -/
theorem Inv.setPrev {done : Bool} (hinv : Inv h st p) (hpc : st.threads c = pc) (hx : x ∈ pc.nexts) (hw : w ∈ pc.prevs)
    (hlink : (w, x) ∈ pc.links) (hunpaired : pc.unpaired = [(w, x)]) (hbegun : ∃ a, (a, x) ∈ pc.begun)
    (hviews : pc.unlinked = [] ∧ pc.marked = []) :
    StepOk h st p c ⟨st.memory.setPrev x w, st.locks, some (.setPrev c x), .release o pc.held done⟩ p := by
  have hself : ThreadOk h st.memory st.locks p c pc := hpc ▸ hinv.threads c
  obtain ⟨halloc, hroot⟩ := hself.nexts x hx
  obtain ⟨hmem, hnext⟩ := hself.links _ hlink
  subst hpc
  have hspine : Listing (st.memory.setPrev x w) p
      (Function.update st.threads c (.release o (st.threads c).held done)) := by
    refine (hinv.listing.mono (fun a ha => exists_update ha ?_) (fun a ha => exists_update ha ?_)
      fun l hl => hl).setPrev hmem halloc hroot hnext fun l hl hne => exists_update hl ?_
    · rw [hviews.1]
      exact fun ha => by cases ha
    · rw [hviews.2]
      exact fun ha => by cases ha
    · rw [hunpaired]
      intro hl
      rw [List.mem_singleton.mp hl] at hne
      exact absurd rfl hne
  refine ⟨hspine, ThreadOk.release hself.held hself.nodup hself.alloc, ?_, fun e he => (by cases he; rfl),
    fun y he => ?_⟩
  · refine Ext.of_store ⟨rfl, rfl, rfl⟩ (fun a => .inl rfl) (fun a => .inl rfl) (fun a => ?_) (fun a ha => .inr ha)
      (fun a ha => .inl ha) ⟨List.nil_subset _, List.nil_subset _, List.nil_subset _, rfl⟩
    refine (update_cases st.memory.prev x w a).imp_right fun hwrite => ?_
    obtain ⟨rfl, hwrite⟩ := hwrite
    refine ⟨hx, ?_⟩
    show Function.update st.memory.prev a w a ∈ _
    rw [hwrite]
    exact hw
  · cases he
    obtain ⟨a, ha⟩ := hbegun
    exact ⟨a, hself.begun _ ha⟩

end Verlib.DList.Concurrent
