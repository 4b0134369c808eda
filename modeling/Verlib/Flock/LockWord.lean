import Verlib.Flock.Lock

/-!
# The lock word protocol

The lock word alternates between counts and descriptors. The invariant follows the count of the lock
(`Shared.clock`), which never decreases: a count that a process has read and that is not the lock
word any more is dead, every counter is at most the count of the lock, and a descriptor is stored
only at a count that is alive. Every step extends the shared memory in the sense of `Ext`, and
everything the other processes know survives an extension.
-/

namespace Verlib.Flock.LockWord

open Interleaving

variable {ι π : Type}

/-! ## What a history says about the lock word -/

/-- Descriptor `d` has been stored into `lck`. -/
def Stored (h : List (Event ι)) (d : Nat) : Prop :=
  .wrote (.locked d) ∈ h

/-- The descriptors stored into `lck`, in order. -/
def storedDescriptors (h : List (Event ι)) : List Nat :=
  h.filterMap fun
    | .wrote (.locked d) => some d
    | _ => none

/-- The unlocked words written to `lck`, in order. -/
def unlockedWords (h : List (Event ι)) : List Nat :=
  h.filterMap fun
    | .wrote (.unlocked n) => some n
    | _ => none

/-- A descriptor is among those stored exactly when it has been stored. -/
theorem mem_storedDescriptors {h : List (Event ι)} {d : Nat} :
    d ∈ storedDescriptors h ↔ Stored h d := by
  unfold storedDescriptors Stored
  rw [List.mem_filterMap]
  constructor
  · rintro ⟨e, he, heq⟩
    split at heq
    · cases heq
      exact he
    · cases heq
  · intro he
    exact ⟨_, he, rfl⟩

/-! ## The invariant -/

/-- The count of the lock: its own when it is free, the one its holder's `counter` keeps when it is
taken. -/
def Shared.clock (sh : Shared ι) : Nat :=
  match sh.lck with
  | .unlocked c => c
  | .locked d => (sh.descs d).counter.count

/-- The lock is held by some descriptor. -/
def Shared.Held (sh : Shared ι) : Prop :=
  ∃ d, sh.lck = .locked d

/-- The lock word will not be the count `x` any more. -/
def Shared.Dead (sh : Shared ι) (x : Nat) : Prop :=
  x < sh.clock ∨ x = sh.clock ∧ sh.Held

/-- The counter of `d` has reached `x`. -/
def Shared.Counted (sh : Shared ι) (d x : Nat) : Prop :=
  ∃ c, (sh.descs d).counter = .unlocked c ∧ x ≤ c

/-- What a process knows of a lock word it has read: a descriptor in it has been stored, and a count
in it is not ahead of the lock, which has moved on if a descriptor was stored and is not done. -/
structure Seen (h : List (Event ι)) (sh : Shared ι) (w : Entry) : Prop where
  locked : ∀ d, w = .locked d → d ≠ 0 → Stored h d
  le : ∀ x, w = .unlocked x → x ≤ sh.clock
  dead : ∀ x d, w = .unlocked x → Stored h d → sh.Dead x ∨ (sh.descs d).done

/-- The outcome `ok` of call `c` on descriptor `d` is settled: the descriptor has been stored, or the
count at which `c` would have stored it is gone. -/
def Verdict (kind : ι → Kind) (h : List (Event ι)) (sh : Shared ι) (c : ι) (d : Nat) :
    Bool → Prop
  | true => Stored h d
  | false => ¬ Stored h d ∧ kind c = .tryLock ∧
      ∃ w, (sh.calls c).current = some w ∧ ∀ x, w = .unlocked x → sh.Dead x

/-- What the log entry of a call may hold. -/
def EntryOk (kind : ι → Kind) (h : List (Event ι)) (sh : Shared ι) (c : ι) : LogEntry → Prop
  | .empty => True
  | .desc d => .commit c d ∈ h
  | .result ok => ∃ d, .commit c d ∈ h ∧ Verdict kind h sh c d ok

/-- What holds of a descriptor that a `try_lock_result` call committed after committing the load `w`:
it is stored at the count `w` or never. -/
def AimOk (h : List (Event ι)) (sh : Shared ι) (d : Nat) : Option Entry → Prop
  | some (.unlocked x) => sh.Counted d x ∧ (Stored h d → sh.Dead x)
  | some (.locked _) => ¬ Stored h d
  | none => False

/-- The invariant of the lock word, the descriptors and the runs. -/
structure WordInv (h : List (Event ι)) (sh : Shared ι) : Prop where
  installed : ∀ d, sh.lck = .locked d → Stored h d ∧ ∃ c, (sh.descs d).counter = .unlocked c
  stored : ∀ d, Stored h d → sh.lck = .locked d ∨ (sh.descs d).done
  done : ∀ d, (sh.descs d).done → Stored h d
  counter : ∀ d, (sh.descs d).counter = .locked 0 ∨
    ∃ c, (sh.descs d).counter = .unlocked c ∧ c ≤ sh.clock
  runs : ∀ d, .runs d ∈ h → Stored h d
  nodup : (storedDescriptors h).Nodup
  words : (0 :: unlockedWords h).Pairwise (· < ·)
  words_le : ∀ n ∈ unlockedWords h, n ≤ sh.clock

/-- The invariant of the logs of the calls. -/
structure CallInv (kind : ι → Kind) (h : List (Event ι)) (sh : Shared ι) : Prop where
  known : ∀ d, Stored h d → ∃ c, .commit c d ∈ h
  fresh : 0 < sh.fresh
  allocated : ∀ c d, .commit c d ∈ h → 0 < d ∧ d < sh.fresh
  filled : ∀ c d, .commit c d ∈ h → (sh.calls c).entry ≠ .empty
  call_unique : ∀ c c' d, .commit c d ∈ h → .commit c' d ∈ h → c = c'
  desc_unique : ∀ c d d', .commit c d ∈ h → .commit c d' ∈ h → d = d'
  entry : ∀ c, EntryOk kind h sh c (sh.calls c).entry
  current : ∀ c w, (sh.calls c).current = some w → Seen h sh w
  aim : ∀ c d, .commit c d ∈ h → kind c = .tryLock → AimOk h sh d (sh.calls c).current
  reports : ∀ c ok, .report c ok ∈ h → ∃ d, .commit c d ∈ h ∧ Verdict kind h sh c d ok

/-- The invariant of the shared memory. -/
structure SharedInv (kind : ι → Kind) (h : List (Event ι)) (sh : Shared ι) : Prop
    extends WordInv h sh, CallInv kind h sh

/-- What a process knows while it runs descriptor `d`. -/
def BodyOk (h : List (Event ι)) (sh : Shared ι) (d : Nat) : Body → Prop
  | .run | .finish => Stored h d
  | .clear | .clearCount => Stored h d ∧ (sh.descs d).done
  | .clearSwap n => Stored h d ∧ (sh.descs d).done ∧
      (sh.lck = .locked d → n = (sh.descs d).counter.succ)

/-- What a process knows while it helps descriptor `e`. -/
def HelpOk (h : List (Event ι)) (sh : Shared ι) (e : Nat) : Help → Prop
  | .look | .check => True
  | .body b => BodyOk h sh e b

/-- A `try_lock_result` call found the lock free with count `x`. -/
def Trying (kind : ι → Kind) (sh : Shared ι) (c : ι) (x : Nat) : Prop :=
  kind c = .tryLock ∧ (sh.calls c).current = some (.unlocked x)

/-- A call that helps another descriptor is `with_lock`, or found the lock taken. -/
def Blocked (kind : ι → Kind) (sh : Shared ι) (c : ι) : Prop :=
  kind c = .tryLock → ∃ e, (sh.calls c).current = some (.locked e)

/-- What a process knows at each position of a call. -/
def PosOk (kind : ι → Kind) (h : List (Event ι)) (sh : Shared ι) (f : Frame ι) : Pos → Prop
  | .tryRead x | .tryCas x => Trying kind sh f.call x
  | .tryAfter => ∃ x, Trying kind sh f.call x ∧ sh.Dead x
  | .tryDone seen => (∃ x, Trying kind sh f.call x ∧ sh.Dead x) ∧
      (seen = .locked f.desc → Stored h f.desc) ∧
      (Stored h f.desc → seen = .locked f.desc ∨ (sh.descs f.desc).done)
  | .withCount w => kind f.call = .withLock ∧ Seen h sh w
  | .withBump old x => kind f.call = .withLock ∧ Seen h sh (.unlocked x) ∧ old.lt (.unlocked x)
  | .withTest w => kind f.call = .withLock ∧ Seen h sh w ∧
      ∀ x, w = .unlocked x → sh.Counted f.desc x
  | .withRead x | .withCas x => kind f.call = .withLock ∧ sh.Counted f.desc x ∧
      (Stored h f.desc → sh.Dead x)
  | .withAgain => kind f.call = .withLock
  | .wantHelp _ => Blocked kind sh f.call
  | .help e s => Blocked kind sh f.call ∧ HelpOk h sh e s
  | .body b => BodyOk h sh f.desc b
  | .retire ok => Verdict kind h sh f.call f.desc ok

/-- What a process knows at each position. -/
def ControlOk (kind : ι → Kind) (h : List (Event ι)) (sh : Shared ι) : Control ι → Prop
  | .idle => True
  | .commit c w => kind c = .tryLock ∧ Seen h sh w
  | .alloc c w | .reload c w =>
      Seen h sh w ∧ (kind c = .tryLock → (sh.calls c).current = some w)
  | .inside f p => .commit f.call f.desc ∈ h ∧ PosOk kind h sh f p

/-- The invariant. -/
structure Inv (kind : ι → Kind) (h : List (Event ι)) (st : State ι π) : Prop where
  shared : SharedInv kind h st.shared
  control : ∀ p, ControlOk kind h st.shared (st.control p)

/-- How a step may change what the other processes rely on. A descriptor that becomes stored leaves
the lock held, and if its call is a `try_lock_result`, the lock was free with the count that the call
had committed. -/
structure Ext (kind : ι → Kind) (h : List (Event ι)) (sh : Shared ι) (h' : List (Event ι))
    (sh' : Shared ι) : Prop where
  hist : ∀ e ∈ h, e ∈ h'
  clock : sh.clock ≤ sh'.clock
  dead : ∀ x, sh.Dead x → sh'.Dead x
  done : ∀ d, (sh.descs d).done → (sh'.descs d).done
  counter : ∀ c d x, .commit c d ∈ h → sh.Counted d x → sh'.Counted d x
  current : ∀ c w, (sh.calls c).current = some w → (sh'.calls c).current = some w
  store : ∀ d, Stored h' d → Stored h d ∨ sh'.Held ∧ ∃ c, .commit c d ∈ h ∧
    (kind c = .tryLock → ∃ x, (sh.calls c).current = some (.unlocked x) ∧ ¬ sh.Dead x)
  held : ∀ d, Stored h d → sh'.lck = .locked d →
    sh.lck = .locked d ∧ (sh'.descs d).counter = (sh.descs d).counter

variable {kind : ι → Kind} {h h' : List (Event ι)} {sh sh' : Shared ι}

/-- A step that does not change the shared memory and stores nothing is an extension. -/
theorem Ext.of_events {es : List (Event ι)} (hes : ∀ d, .wrote (.locked d) ∉ es) :
    Ext kind h sh (h ++ es) sh where
  hist _ he := List.mem_append_left _ he
  clock := le_rfl
  dead _ hx := hx
  done _ hd := hd
  counter _ _ _ _ hx := hx
  current _ _ hw := hw
  store d hd := by
    rcases List.mem_append.mp hd with hd | hd
    · exact .inl hd
    · exact absurd hd (hes d)
  held _ _ hl := ⟨hl, rfl⟩

/-- A count that is not ahead of the lock is dead once the lock is held. -/
theorem Shared.Dead.of_held {x : Nat} (hx : x ≤ sh.clock) (hheld : sh.Held) : sh.Dead x := by
  rcases Nat.lt_or_eq_of_le hx with hlt | heq
  · exact .inl hlt
  · exact .inr ⟨heq, hheld⟩

/-- The lock word is not a dead count. -/
theorem Shared.Dead.ne_lck {x : Nat} (hx : sh.Dead x) : sh.lck ≠ .unlocked x := by
  intro hlck
  rcases hx with hlt | ⟨_, d, hd⟩
  · simp [Shared.clock, hlck] at hlt
  · simp [hlck] at hd

/-- A count that is not ahead of the lock and is not the lock word is dead. -/
theorem Shared.Dead.of_ne {x : Nat} (hx : x ≤ sh.clock) (hne : sh.lck ≠ .unlocked x) :
    sh.Dead x := by
  cases hlck : sh.lck with
  | locked d => exact .of_held hx ⟨d, hlck⟩
  | unlocked c =>
      have hc : x ≠ c := by
        rintro rfl
        exact hne hlck
      simp only [Shared.clock, hlck] at hx
      exact .inl (by simp only [Shared.clock, hlck]; omega)

/-- A counter that has reached `x` is not ahead of the lock. -/
theorem SharedInv.counted_le (hinv : SharedInv kind h sh) {d x : Nat} (hx : sh.Counted d x) :
    x ≤ sh.clock := by
  obtain ⟨c, hc, hle⟩ := hx
  rcases hinv.counter d with h0 | ⟨c', hc', hle'⟩
  · simp [h0] at hc
  · rw [hc] at hc'
    cases hc'
    exact hle.trans hle'

/-- A count that is not ahead of the lock may be treated as one that was read. -/
theorem SharedInv.seen_unlocked (hinv : SharedInv kind h sh) {x : Nat} (hx : x ≤ sh.clock) :
    Seen h sh (.unlocked x) where
  locked := by simp
  le y hy := by
    cases hy
    exact hx
  dead y d hy hd := by
    cases hy
    rcases hinv.stored d hd with hl | hdone
    · exact .inl (.of_held hx ⟨d, hl⟩)
    · exact .inr hdone

/-- What a read of the lock word gives. -/
theorem SharedInv.seen_lck (hinv : SharedInv kind h sh) : Seen h sh sh.lck := by
  cases hlck : sh.lck with
  | unlocked x => exact hinv.seen_unlocked (by simp [Shared.clock, hlck])
  | locked d =>
      refine ⟨?_, by simp, by simp⟩
      rintro e ⟨⟩ _
      exact (hinv.installed d hlck).1

/-- What a read of a counter gives. -/
theorem SharedInv.seen_counter (hinv : SharedInv kind h sh) (d : Nat) :
    Seen h sh (sh.descs d).counter := by
  rcases hinv.counter d with h0 | ⟨c, hc, hle⟩
  · rw [h0]
    refine ⟨?_, by simp, by simp⟩
    rintro e ⟨⟩ hne
    exact absurd rfl hne
  · rw [hc]
    exact hinv.seen_unlocked hle

/-! ## Facts survive an extension -/

section Transport

variable (hext : Ext kind h sh h' sh')
include hext

/-- A stored descriptor stays stored. -/
theorem Ext.stored {d : Nat} (hd : Stored h d) : Stored h' d :=
  hext.hist _ hd

/-- What is known of a word that was read stays known. -/
theorem Ext.seen {w : Entry} (hw : Seen h sh w) : Seen h' sh' w where
  locked d hd hne := hext.stored (hw.locked d hd hne)
  le x hx := (hw.le x hx).trans hext.clock
  dead x d hx hd := by
    rcases hext.store d hd with hold | ⟨hheld, _⟩
    · rcases hw.dead x d hx hold with hdead | hdone
      · exact .inl (hext.dead x hdead)
      · exact .inr (hext.done d hdone)
    · exact .inl (.of_held ((hw.le x hx).trans hext.clock) hheld)

/-- A descriptor that is not stored past the count `x` stays so. -/
theorem Ext.aimed (hinv : SharedInv kind h sh) {c : ι} {d x : Nat} (hc : .commit c d ∈ h)
    (hx : sh.Counted d x) (hd : Stored h d → sh.Dead x) :
    sh'.Counted d x ∧ (Stored h' d → sh'.Dead x) := by
  refine ⟨hext.counter c d x hc hx, ?_⟩
  intro hd'
  rcases hext.store d hd' with hold | ⟨hheld, _⟩
  · exact hext.dead x (hd hold)
  · exact .of_held ((hinv.counted_le hx).trans hext.clock) hheld

/-- A descriptor of a `try_lock_result` call whose committed count is gone is stored by no step. -/
theorem Ext.not_stored (hinv : SharedInv kind h sh) {c : ι} {d : Nat} {w : Entry}
    (hc : .commit c d ∈ h) (hk : kind c = .tryLock) (hw : (sh.calls c).current = some w)
    (hdead : ∀ x, w = .unlocked x → sh.Dead x) (hd : Stored h' d) : Stored h d := by
  rcases hext.store d hd with hold | ⟨_, c', hc', haim⟩
  · exact hold
  · obtain rfl := hinv.call_unique c c' d hc hc'
    obtain ⟨x, hx, hne⟩ := haim hk
    rw [hw] at hx
    exact absurd (hdead x (Option.some.inj hx)) hne

/-- A settled outcome stays settled. -/
theorem Ext.verdict (hinv : SharedInv kind h sh) {c : ι} {d : Nat} {ok : Bool}
    (hc : .commit c d ∈ h) (hv : Verdict kind h sh c d ok) : Verdict kind h' sh' c d ok := by
  cases ok with
  | true => exact hext.stored hv
  | false =>
      obtain ⟨hns, hk, w, hw, hdead⟩ := hv
      exact ⟨fun hd => hns (hext.not_stored hinv hc hk hw hdead hd), hk, w, hext.current c w hw,
        fun x hx => hext.dead x (hdead x hx)⟩

/-- What a log entry means does not change. -/
theorem Ext.entryOk (hinv : SharedInv kind h sh) {c : ι} {x : LogEntry}
    (hx : EntryOk kind h sh c x) : EntryOk kind h' sh' c x := by
  cases x with
  | empty => trivial
  | desc d => exact hext.hist _ hx
  | result ok =>
      obtain ⟨d, hc, hv⟩ := hx
      exact ⟨d, hext.hist _ hc, hext.verdict hinv hc hv⟩

/-- A descriptor stays bound to the load that its call committed. -/
theorem Ext.aimOk (hinv : SharedInv kind h sh) {c : ι} {d : Nat} (hc : .commit c d ∈ h)
    (hk : kind c = .tryLock) (hd : AimOk h sh d (sh.calls c).current) :
    AimOk h' sh' d (sh.calls c).current := by
  match hcur : (sh.calls c).current with
  | none => rwa [hcur] at hd
  | some (.unlocked x) =>
      rw [hcur] at hd
      exact hext.aimed hinv hc hd.1 hd.2
  | some (.locked e) =>
      rw [hcur] at hd
      exact fun hd' => hd (hext.not_stored hinv hc hk hcur (by simp) hd')

/-- What is known while a descriptor runs stays known. -/
theorem Ext.body {d : Nat} {b : Body} (hb : BodyOk h sh d b) : BodyOk h' sh' d b := by
  cases b with
  | run | finish => exact hext.stored hb
  | clear | clearCount => exact ⟨hext.stored hb.1, hext.done d hb.2⟩
  | clearSwap n =>
      obtain ⟨hd, hdone, hn⟩ := hb
      refine ⟨hext.stored hd, hext.done d hdone, ?_⟩
      intro hl
      obtain ⟨hold, heq⟩ := hext.held d hd hl
      rw [heq]
      exact hn hold

/-- A call keeps the count that it committed. -/
theorem Ext.trying {c : ι} {x : Nat} (ht : Trying kind sh c x) : Trying kind sh' c x :=
  ⟨ht.1, hext.current c _ ht.2⟩

/-- A call that found the lock taken keeps that load. -/
theorem Ext.blocked {c : ι} (hb : Blocked kind sh c) : Blocked kind sh' c := by
  intro hk
  obtain ⟨e, he⟩ := hb hk
  exact ⟨e, hext.current c _ he⟩

/-- What a process knows inside a call stays known. -/
theorem Ext.pos (hinv : SharedInv kind h sh) {f : Frame ι} {p : Pos}
    (hc : .commit f.call f.desc ∈ h) (hp : PosOk kind h sh f p) : PosOk kind h' sh' f p := by
  cases p with
  | tryRead x | tryCas x => exact hext.trying hp
  | tryAfter =>
      obtain ⟨x, ht, hdead⟩ := hp
      exact ⟨x, hext.trying ht, hext.dead x hdead⟩
  | tryDone seen =>
      obtain ⟨⟨x, ht, hdead⟩, hseen, hst⟩ := hp
      refine ⟨⟨x, hext.trying ht, hext.dead x hdead⟩, fun hs => hext.stored (hseen hs), ?_⟩
      intro hd
      have hold := hext.not_stored hinv hc ht.1 ht.2 (by rintro y ⟨⟩; exact hdead) hd
      exact (hst hold).imp_right (hext.done f.desc)
  | withCount w => exact ⟨hp.1, hext.seen hp.2⟩
  | withBump old x => exact ⟨hp.1, hext.seen hp.2.1, hp.2.2⟩
  | withTest w => exact ⟨hp.1, hext.seen hp.2.1, fun x hx => hext.counter _ _ x hc (hp.2.2 x hx)⟩
  | withRead x | withCas x => exact ⟨hp.1, hext.aimed hinv hc hp.2.1 hp.2.2⟩
  | withAgain => exact hp
  | wantHelp e => exact hext.blocked hp
  | help e s =>
      refine ⟨hext.blocked hp.1, ?_⟩
      cases s with
      | look | check => trivial
      | body b => exact hext.body (d := e) hp.2
  | body b => exact hext.body (d := f.desc) hp
  | retire ok => exact hext.verdict hinv hc hp

/-- What a process knows stays known. -/
theorem Ext.control (hinv : SharedInv kind h sh) {x : Control ι} (hx : ControlOk kind h sh x) :
    ControlOk kind h' sh' x := by
  cases x with
  | idle => trivial
  | commit c w => exact ⟨hx.1, hext.seen hx.2⟩
  | alloc c w | reload c w => exact ⟨hext.seen hx.1, fun hk => hext.current c w (hx.2 hk)⟩
  | inside f p => exact ⟨hext.hist _ hx.1, hext.pos hinv hx.1 hx.2⟩

end Transport

/-- A step of process `p` preserves the invariant if it extends the shared memory, keeps the
invariant there, and `p` knows what its new position requires. -/
theorem Inv.move [DecidableEq π] {st : State ι π} {p : π} {x : Control ι} (hinv : Inv kind h st)
    (hext : Ext kind h st.shared h' sh') (hsh : SharedInv kind h' sh')
    (hx : ControlOk kind h' sh' x) : Inv kind h' (st.move p sh' x) := by
  refine ⟨hsh, ?_⟩
  refine (Function.forall_update_iff _ fun _ => ControlOk kind h' sh').mpr ⟨hx, ?_⟩
  intro q _
  exact hext.control hinv.shared (hinv.control q)

/-! ## The steps that change the shared memory -/

/-- The count of a lock that is held is the counter of its holder. -/
theorem Shared.clock_of_locked {d c : Nat} (hl : sh.lck = .locked d)
    (hc : (sh.descs d).counter = .unlocked c) : sh.clock = c := by
  simp [Shared.clock, hl, hc, Entry.count]

/-- The count of a lock that is free. -/
theorem Shared.clock_of_unlocked {x : Nat} (hl : sh.lck = .unlocked x) : sh.clock = x := by
  simp [Shared.clock, hl]

/-- The invariant of the calls survives an extension in which only calls without a descriptor commit a
load, log entries change only to settled outcomes, and only settled outcomes are reported. -/
theorem Ext.callInv (hext : Ext kind h sh h' sh') (hinv : SharedInv kind h sh)
    (hcurrent : ∀ c, (sh'.calls c).current = (sh.calls c).current ∨
      (∀ d, .commit c d ∉ h) ∧ ∃ w, (sh'.calls c).current = some w ∧ Seen h sh w)
    (hentry : ∀ c, (sh'.calls c).entry = (sh.calls c).entry ∨
      ∃ ok d, (sh'.calls c).entry = .result ok ∧ .commit c d ∈ h ∧ Verdict kind h sh c d ok)
    (hfresh : sh'.fresh = sh.fresh)
    (hcommit : ∀ c d, .commit c d ∈ h' → .commit c d ∈ h)
    (hreport : ∀ c ok, .report c ok ∈ h' → ∃ d, .commit c d ∈ h ∧ Verdict kind h sh c d ok) :
    CallInv kind h' sh' where
  known d hd := by
    rcases hext.store d hd with hold | ⟨_, c, hc, _⟩
    · obtain ⟨c, hc⟩ := hinv.known d hold
      exact ⟨c, hext.hist _ hc⟩
    · exact ⟨c, hext.hist _ hc⟩
  fresh := hfresh ▸ hinv.fresh
  allocated c d hc := by
    rw [hfresh]
    exact hinv.allocated c d (hcommit c d hc)
  filled c d hc := by
    rcases hentry c with heq | ⟨ok, _, heq, _⟩
    · rw [heq]
      exact hinv.filled c d (hcommit c d hc)
    · simp [heq]
  call_unique c c' d hc hc' := hinv.call_unique c c' d (hcommit c d hc) (hcommit c' d hc')
  desc_unique c d d' hc hc' := hinv.desc_unique c d d' (hcommit c d hc) (hcommit c d' hc')
  entry c := by
    rcases hentry c with heq | ⟨ok, d, heq, hc, hv⟩
    · rw [heq]
      exact hext.entryOk hinv (hinv.entry c)
    · rw [heq]
      exact ⟨d, hext.hist _ hc, hext.verdict hinv hc hv⟩
  current c w hw := by
    rcases hcurrent c with heq | ⟨_, w', heq, hw'⟩
    · rw [heq] at hw
      exact hext.seen (hinv.current c w hw)
    · rw [heq] at hw
      cases hw
      exact hext.seen hw'
  aim c d hc hk := by
    have hc := hcommit c d hc
    rcases hcurrent c with heq | ⟨hnone, _⟩
    · rw [heq]
      exact hext.aimOk hinv hc hk (hinv.aim c d hc hk)
    · exact absurd hc (hnone d)
  reports c ok hr := by
    obtain ⟨d, hc, hv⟩ := hreport c ok hr
    exact ⟨d, hext.hist _ hc, hext.verdict hinv hc hv⟩

/-- The invariant of the lock word does not depend on the logs, nor on commits and reports. -/
theorem WordInv.congr (hinv : WordInv h sh) (hlck : sh'.lck = sh.lck)
    (hdescs : sh'.descs = sh.descs) {es : List (Event ι)}
    (hes : ∀ e ∈ es, (∃ c d, e = .commit c d) ∨ ∃ c ok, e = .report c ok) :
    WordInv (h ++ es) sh' := by
  have hstored : ∀ d, Stored (h ++ es) d ↔ Stored h d := by
    intro d
    refine ⟨fun hd => ?_, List.mem_append_left _⟩
    rcases List.mem_append.mp hd with hd | hd
    · exact hd
    · rcases hes _ hd with ⟨_, _, heq⟩ | ⟨_, _, heq⟩ <;> cases heq
  have hclock : sh'.clock = sh.clock := by simp [Shared.clock, hlck, hdescs]
  have hnone : storedDescriptors es = [] ∧ unlockedWords es = [] := by
    constructor <;> refine List.filterMap_eq_nil_iff.mpr fun e he => ?_ <;>
      rcases hes e he with ⟨_, _, rfl⟩ | ⟨_, _, rfl⟩ <;> rfl
  have hsd : storedDescriptors (h ++ es) = storedDescriptors h := by
    simpa [storedDescriptors] using hnone.1
  have huw : unlockedWords (h ++ es) = unlockedWords h := by
    simpa [unlockedWords] using hnone.2
  refine ⟨?_, ?_, ?_, ?_, ?_, ?_, ?_, ?_⟩
  · simpa only [hlck, hdescs, hstored] using hinv.installed
  · simpa only [hlck, hdescs, hstored] using hinv.stored
  · simpa only [hdescs, hstored] using hinv.done
  · simpa only [hdescs, hclock] using hinv.counter
  · intro d hd
    rw [hstored]
    rcases List.mem_append.mp hd with hd | hd
    · exact hinv.runs d hd
    · rcases hes _ hd with ⟨_, _, heq⟩ | ⟨_, _, heq⟩ <;> cases heq
  · simpa only [hsd] using hinv.nodup
  · simpa only [huw] using hinv.words
  · simpa only [huw, hclock] using hinv.words_le

/-- The invariant of the calls survives an extension that leaves their logs alone and neither commits
nor reports. -/
theorem Ext.callInv_of_eq (hext : Ext kind h sh h' sh') (hinv : SharedInv kind h sh)
    (hcalls : sh'.calls = sh.calls) (hfresh : sh'.fresh = sh.fresh)
    (hcommit : ∀ c d, .commit c d ∈ h' → .commit c d ∈ h)
    (hreport : ∀ c ok, .report c ok ∈ h' → .report c ok ∈ h) : CallInv kind h' sh' :=
  hext.callInv hinv (fun c => .inl (by rw [hcalls])) (fun c => .inl (by rw [hcalls])) hfresh hcommit
    fun c ok hr => hinv.reports c ok (hreport c ok hr)

/-- Recording that a stored descriptor runs. -/
theorem SharedInv.runs_event (hinv : SharedInv kind h sh) {d : Nat} (hd : Stored h d) :
    Ext kind h sh (h ++ [.runs d]) sh ∧ SharedInv kind (h ++ [.runs d]) sh := by
  have hext : Ext kind h sh (h ++ [.runs d]) sh := .of_events (by simp)
  have hstored : ∀ e, Stored (h ++ [.runs d]) e ↔ Stored h e := by simp [Stored]
  refine ⟨hext, ⟨?_, ?_, ?_, hinv.counter, ?_, ?_, ?_, ?_⟩,
    hext.callInv_of_eq hinv rfl rfl (by simp) (by simp)⟩
  · simpa only [hstored] using hinv.installed
  · simpa only [hstored] using hinv.stored
  · simpa only [hstored] using hinv.done
  · intro e he
    rw [hstored]
    rcases List.mem_append.mp he with he | he
    · exact hinv.runs e he
    · cases List.mem_singleton.mp he
      exact hd
  · simpa [storedDescriptors] using hinv.nodup
  · simpa [unlockedWords] using hinv.words
  · simpa [unlockedWords] using hinv.words_le

/-- An extension by commits and reports only, with the lock word and the descriptors as before. -/
theorem Ext.of_log {es : List (Event ι)} (hlck : sh'.lck = sh.lck) (hdescs : sh'.descs = sh.descs)
    (hcurrent : ∀ c w, (sh.calls c).current = some w → (sh'.calls c).current = some w)
    (hes : ∀ d, .wrote (.locked d) ∉ es) : Ext kind h sh (h ++ es) sh' := by
  have hclock : sh'.clock = sh.clock := by simp [Shared.clock, hlck, hdescs]
  refine ⟨fun _ he => List.mem_append_left _ he, hclock.ge, ?_, ?_, ?_, hcurrent, ?_, ?_⟩
  · simp [Shared.Dead, Shared.Held, hclock, hlck]
  · simp [hdescs]
  · simp [Shared.Counted, hdescs]
  · intro d hd
    rcases List.mem_append.mp hd with hd | hd
    · exact .inl hd
    · exact absurd hd (hes d)
  · simp [hlck, hdescs]

/-- A report of a settled outcome, with or without writing it to the log. -/
theorem SharedInv.report [DecidableEq ι] (hinv : SharedInv kind h sh) {c : ι} {d : Nat} {ok : Bool}
    (hc : .commit c d ∈ h) (hv : Verdict kind h sh c d ok) (own : Bool) :
    let sh' := if own then sh.setEntry c (.result ok) else sh
    Ext kind h sh (h ++ [.report c ok]) sh' ∧ SharedInv kind (h ++ [.report c ok]) sh' := by
  intro sh'
  have hcurrent : ∀ b, (sh'.calls b).current = (sh.calls b).current := by
    intro b
    by_cases hb : b = c <;> cases own <;> simp [sh', Shared.setEntry, hb]
  have hlck : sh'.lck = sh.lck := by cases own <;> rfl
  have hdescs : sh'.descs = sh.descs := by cases own <;> rfl
  have hext : Ext kind h sh (h ++ [.report c ok]) sh' :=
    .of_log hlck hdescs (fun b w hw => (hcurrent b).trans hw) (by simp)
  refine ⟨hext, hinv.toWordInv.congr hlck hdescs ?_, 
    hext.callInv hinv (fun b => .inl (hcurrent b)) ?_ ?_ ?_ ?_⟩
  · intro e he
    exact .inr ⟨c, ok, List.mem_singleton.mp he⟩
  · intro b
    by_cases hb : b = c
    · subst hb
      cases own
      · exact .inl rfl
      · exact .inr ⟨ok, d, by simp [sh', Shared.setEntry], hc, hv⟩
    · left
      cases own <;> simp [sh', Shared.setEntry, hb]
  · cases own <;> rfl
  · simp
  · intro b r hr
    rcases List.mem_append.mp hr with hr | hr
    · exact hinv.reports b r hr
    · cases List.mem_singleton.mp hr
      exact ⟨d, hc, hv⟩

/-- Committing the load of a call that has none. -/
theorem SharedInv.setCurrent [DecidableEq ι] (hinv : SharedInv kind h sh) {c : ι} {w : Entry}
    (hnone : (sh.calls c).current = none) (hk : kind c = .tryLock) (hw : Seen h sh w) :
    Ext kind h sh h (sh.setCurrent c w) ∧ SharedInv kind h (sh.setCurrent c w) := by
  have hother : ∀ b, b ≠ c → (sh.setCurrent c w).calls b = sh.calls b := by
    intro b hb
    simp [Shared.setCurrent, hb]
  have hext : Ext kind h sh (h ++ []) (sh.setCurrent c w) := by
    refine .of_log rfl rfl ?_ (by simp)
    intro b u hu
    have hb : b ≠ c := by
      rintro rfl
      simp [hnone] at hu
    rwa [hother b hb]
  have hword : WordInv (h ++ []) (sh.setCurrent c w) :=
    hinv.toWordInv.congr (by rfl) (by rfl) fun _ he => absurd he List.not_mem_nil
  have hfree : ∀ d, .commit c d ∉ h := by
    intro d hc
    have haim := hinv.aim c d hc hk
    rwa [hnone] at haim
  rw [List.append_nil] at hext hword
  refine ⟨hext, hword, hext.callInv hinv ?_ ?_ rfl (fun _ _ hc => hc) hinv.reports⟩
  · intro b
    by_cases hb : b = c
    · subst hb
      exact .inr ⟨hfree, w, by simp [Shared.setCurrent], hw⟩
    · exact .inl (by rw [hother b hb])
  · intro b
    by_cases hb : b = c
    · subst hb
      exact .inl (by simp [Shared.setCurrent])
    · exact .inl (by rw [hother b hb])

/-- Marking a stored descriptor as done. -/
theorem SharedInv.setDone (hinv : SharedInv kind h sh) {d : Nat} (hd : Stored h d) :
    Ext kind h sh h (sh.setDone d) ∧ SharedInv kind h (sh.setDone d) := by
  have hcounter : ∀ e, ((sh.setDone d).descs e).counter = (sh.descs e).counter := by
    intro e
    by_cases he : e = d <;> simp [Shared.setDone, he]
  have hdone : ∀ e, ((sh.setDone d).descs e).done = true ↔ e = d ∨ (sh.descs e).done = true := by
    intro e
    by_cases he : e = d <;> simp [Shared.setDone, he]
  have hlck : (sh.setDone d).lck = sh.lck := rfl
  have hclock : (sh.setDone d).clock = sh.clock := by
    simp only [Shared.clock, hlck, hcounter]
  have hext : Ext kind h sh h (sh.setDone d) := by
    refine ⟨fun _ he => he, hclock.ge, ?_, ?_, ?_, fun _ _ hw => hw, fun _ he => .inl he, ?_⟩
    · simp [Shared.Dead, Shared.Held, hclock, hlck]
    · intro e he
      exact (hdone e).mpr (.inr he)
    · simp [Shared.Counted, hcounter]
    · intro e _ he
      exact ⟨he, hcounter e⟩
  refine ⟨hext, ⟨?_, ?_, ?_, ?_, hinv.runs, hinv.nodup, hinv.words, ?_⟩,
    hext.callInv_of_eq hinv rfl rfl (by simp) (by simp)⟩
  · simpa only [hlck, hcounter] using hinv.installed
  · intro e he
    exact (hinv.stored e he).imp_right fun hold => (hdone e).mpr (.inr hold)
  · intro e he
    rcases (hdone e).mp he with rfl | hold
    · exact hd
    · exact hinv.done e hold
  · simpa only [hcounter, hclock] using hinv.counter
  · simpa only [hclock] using hinv.words_le

/-- A word below a count is the null word or a smaller count. -/
theorem Entry.lt_unlocked {w : Entry} {x : Nat} (hlt : w.lt (.unlocked x)) :
    (∃ d, w = .locked d) ∨ ∃ c, w = .unlocked c ∧ c < x := by
  cases w with
  | locked d => exact .inl ⟨d, rfl⟩
  | unlocked c => exact .inr ⟨c, rfl, by simpa [Entry.lt] using hlt⟩

/-- Raising a counter to a count that is not ahead of the lock. The descriptor is not installed, since
the counter of an installed one is the count of the lock already. -/
theorem SharedInv.setCounter (hinv : SharedInv kind h sh) {d x : Nat} (hx : x ≤ sh.clock)
    (hlt : (sh.descs d).counter.lt (.unlocked x)) :
    Ext kind h sh h (sh.setCounter d (.unlocked x)) ∧
      SharedInv kind h (sh.setCounter d (.unlocked x)) := by
  set sh' := sh.setCounter d (.unlocked x) with hsh'
  have hother : ∀ e, e ≠ d → sh'.descs e = sh.descs e := by
    intro e he
    simp [hsh', Shared.setCounter, he]
  have hself : (sh'.descs d).counter = .unlocked x := by simp [hsh', Shared.setCounter]
  have hdone : ∀ e, (sh'.descs e).done = (sh.descs e).done := by
    intro e
    by_cases he : e = d <;> simp [hsh', Shared.setCounter, he]
  have hlck : sh'.lck = sh.lck := rfl
  have hfree : sh.lck ≠ .locked d := by
    intro hl
    obtain ⟨_, c, hc⟩ := hinv.installed d hl
    rw [Shared.clock_of_locked hl hc] at hx
    rcases Entry.lt_unlocked hlt with ⟨_, heq⟩ | ⟨c', heq, hc'⟩
    · simp [heq] at hc
    · rw [heq] at hc
      cases hc
      omega
  have hclock : sh'.clock = sh.clock := by
    unfold Shared.clock
    rw [hlck]
    cases hl : sh.lck with
    | unlocked c => rfl
    | locked e =>
        have he : e ≠ d := by
          rintro rfl
          exact hfree hl
        simp [hother e he]
  have hne : ∀ e, sh.lck = .locked e → e ≠ d := by
    rintro e hl rfl
    exact hfree hl
  have hext : Ext kind h sh h sh' := by
    refine ⟨fun _ he => he, hclock.ge, ?_, ?_, ?_, fun _ _ hw => hw, fun _ he => .inl he, ?_⟩
    · simp [Shared.Dead, Shared.Held, hclock, hlck]
    · simp [hdone]
    · rintro _ e y _ ⟨c, hc, hy⟩
      by_cases he : e = d
      · subst he
        rcases Entry.lt_unlocked hlt with ⟨_, heq⟩ | ⟨c', heq, hc'⟩
        · simp [heq] at hc
        · rw [heq] at hc
          cases hc
          exact ⟨x, hself, by omega⟩
      · exact ⟨c, by rw [hother e he]; exact hc, hy⟩
    · intro e _ he
      exact ⟨he, by rw [hother e (hne e he)]⟩
  refine ⟨hext, ⟨?_, ?_, ?_, ?_, hinv.runs, hinv.nodup, hinv.words, ?_⟩,
    hext.callInv_of_eq hinv rfl rfl (by simp) (by simp)⟩
  · intro e hl
    rw [hother e (hne e hl)]
    exact hinv.installed e hl
  · simpa only [hlck, hdone] using hinv.stored
  · simpa only [hdone] using hinv.done
  · intro e
    by_cases he : e = d
    · subst he
      exact .inr ⟨x, hself, hclock.symm ▸ hx⟩
    · rw [hother e he, hclock]
      exact hinv.counter e
  · simpa only [hclock] using hinv.words_le

/-- Storing a descriptor: the lock is free with a count that the descriptor's counter has reached, so
the count of the lock does not change, and the descriptor was not stored before. -/
theorem SharedInv.store (hinv : SharedInv kind h sh) {c : ι} {d x : Nat}
    (hl : sh.lck = .unlocked x) (hc : .commit c d ∈ h) (hx : sh.Counted d x)
    (hd : Stored h d → sh.Dead x)
    (hk : kind c = .tryLock → (sh.calls c).current = some (.unlocked x)) :
    Ext kind h sh (h ++ [.wrote (.locked d)]) { sh with lck := .locked d } ∧
      SharedInv kind (h ++ [.wrote (.locked d)]) { sh with lck := .locked d } := by
  have hnew : ¬ Stored h d := fun hold => (hd hold).ne_lck hl
  have hstored : ∀ e, Stored (h ++ [.wrote (.locked d)]) e ↔ Stored h e ∨ e = d := by
    simp [Stored]
  have hfree : sh.clock = x := Shared.clock_of_unlocked hl
  obtain ⟨k, hcount, hle⟩ := hx
  have hclock : Shared.clock { sh with lck := .locked d } = sh.clock := by
    have hkx := hinv.counted_le ⟨k, hcount, le_rfl⟩
    have hk' : Shared.clock { sh with lck := .locked d } = k := by
      simp [Shared.clock, hcount, Entry.count]
    omega
  have hext : Ext kind h sh (h ++ [.wrote (.locked d)]) { sh with lck := .locked d } := by
    refine ⟨fun _ he => List.mem_append_left _ he, hclock.ge, ?_, fun _ he => he, fun _ _ _ _ he => he,
      fun _ _ he => he, ?_, ?_⟩
    · intro y hy
      refine .of_held ?_ ⟨d, rfl⟩
      rw [hclock]
      rcases hy with hlt | ⟨heq, _⟩
      · exact hlt.le
      · exact heq.le
    · intro e he
      rcases (hstored e).mp he with hold | rfl
      · exact .inl hold
      · exact .inr ⟨⟨e, rfl⟩, c, hc, fun ht => ⟨x, hk ht, fun hdead => hdead.ne_lck hl⟩⟩
    · rintro e he ⟨⟩
      exact absurd he hnew
  refine ⟨hext, ⟨?_, ?_, ?_, ?_, ?_, ?_, ?_, ?_⟩,
    hext.callInv_of_eq hinv rfl rfl (by simp) (by simp)⟩
  · rintro e ⟨⟩
    exact ⟨(hstored d).mpr (.inr rfl), k, hcount⟩
  · intro e he
    rcases (hstored e).mp he with hold | rfl
    · rcases hinv.stored e hold with habs | hdone
      · simp [hl] at habs
      · exact .inr hdone
    · exact .inl rfl
  · intro e he
    exact (hstored e).mpr (.inl (hinv.done e he))
  · simpa only [hclock] using hinv.counter
  · intro e he
    exact (hstored e).mpr (.inl (hinv.runs e (by simpa using he)))
  · have heq : storedDescriptors (h ++ [.wrote (.locked d)]) = storedDescriptors h ++ [d] := by
      simp [storedDescriptors]
    rw [heq, List.nodup_append]
    refine ⟨hinv.nodup, by simp, ?_⟩
    rintro a ha b hb rfl
    rw [List.mem_singleton] at hb
    subst hb
    exact hnew (mem_storedDescriptors.mp ha)
  · simpa [unlockedWords] using hinv.words
  · rw [hclock]
    simpa [unlockedWords] using hinv.words_le

/-- Unlocking: the word written is the next count of the lock. -/
theorem SharedInv.unlock (hinv : SharedInv kind h sh) {d : Nat} {n : Entry}
    (hl : sh.lck = .locked d) (hdone : (sh.descs d).done) (hn : n = (sh.descs d).counter.succ) :
    Ext kind h sh (h ++ [.wrote n]) { sh with lck := n } ∧
      SharedInv kind (h ++ [.wrote n]) { sh with lck := n } := by
  obtain ⟨_, c, hc⟩ := hinv.installed d hl
  have hold : sh.clock = c := Shared.clock_of_locked hl hc
  obtain rfl : n = .unlocked (c + 1) := by rw [hn, hc, Entry.succ]
  have hstored : ∀ e, Stored (h ++ [.wrote (.unlocked (c + 1))]) e ↔ Stored h e := by
    simp [Stored]
  have hclock : Shared.clock { sh with lck := .unlocked (c + 1) } = c + 1 := rfl
  have hext : Ext kind h sh (h ++ [.wrote (.unlocked (c + 1))])
      { sh with lck := .unlocked (c + 1) } := by
    refine ⟨fun _ he => List.mem_append_left _ he, by rw [hclock]; omega, ?_, fun _ he => he,
      fun _ _ _ _ he => he, fun _ _ he => he, fun e he => .inl ((hstored e).mp he), ?_⟩
    · intro y hy
      refine .inl ?_
      rw [hclock]
      rcases hy with hlt | ⟨heq, _⟩ <;> omega
    · rintro e _ ⟨⟩
  refine ⟨hext, ⟨?_, ?_, ?_, ?_, ?_, ?_, ?_, ?_⟩,
    hext.callInv_of_eq hinv rfl rfl (by simp) (by simp)⟩
  · rintro e ⟨⟩
  · intro e he
    rcases hinv.stored e ((hstored e).mp he) with heq | hd
    · rw [hl] at heq
      cases heq
      exact .inr hdone
    · exact .inr hd
  · intro e he
    exact (hstored e).mpr (hinv.done e he)
  · intro e
    refine (hinv.counter e).imp_right ?_
    rintro ⟨k, hk, hle⟩
    exact ⟨k, hk, by rw [hclock]; omega⟩
  · intro e he
    exact (hstored e).mpr (hinv.runs e (by simpa using he))
  · simpa [storedDescriptors] using hinv.nodup
  · have heq : unlockedWords (h ++ [.wrote (.unlocked (c + 1))]) = unlockedWords h ++ [c + 1] := by
      simp [unlockedWords]
    rw [heq, ← List.cons_append, List.pairwise_append]
    refine ⟨hinv.words, List.pairwise_singleton _ _, ?_⟩
    intro a ha b hb
    rw [List.mem_singleton] at hb
    subst hb
    rcases List.mem_cons.mp ha with rfl | ha
    · omega
    · have hle := hinv.words_le a ha
      omega
  · intro a ha
    rw [hclock]
    have heq : unlockedWords (h ++ [.wrote (.unlocked (c + 1))]) = unlockedWords h ++ [c + 1] := by
      simp [unlockedWords]
    rw [heq, List.mem_append, List.mem_singleton] at ha
    rcases ha with ha | rfl
    · have hle := hinv.words_le a ha
      omega
    · exact le_rfl

/-- Allocating the descriptor of a call and committing it. -/
theorem SharedInv.allocate [DecidableEq ι] (hinv : SharedInv kind h sh) {c : ι} {w : Entry}
    (hentry : (sh.calls c).entry = .empty) (hw : Seen h sh w)
    (hk : kind c = .tryLock → (sh.calls c).current = some w) :
    Ext kind h sh (h ++ [.commit c sh.fresh]) (sh.allocate c w) ∧
      SharedInv kind (h ++ [.commit c sh.fresh]) (sh.allocate c w) := by
  set sh' := sh.allocate c w with hsh'
  have hlck : sh'.lck = sh.lck := rfl
  have hother : ∀ e, e ≠ sh.fresh → sh'.descs e = sh.descs e := by
    intro e he
    simp [hsh', Shared.allocate, Shared.setEntry, he]
  have hself : sh'.descs sh.fresh = ⟨firstCounter w, false⟩ := by
    simp [hsh', Shared.allocate, Shared.setEntry]
  have hcurrent : ∀ b, (sh'.calls b).current = (sh.calls b).current := by
    intro b
    by_cases hb : b = c <;> simp [hsh', Shared.allocate, Shared.setEntry, hb]
  have hentries : ∀ b, b ≠ c → (sh'.calls b).entry = (sh.calls b).entry := by
    intro b hb
    simp [hsh', Shared.allocate, Shared.setEntry, hb]
  have hown : (sh'.calls c).entry = .desc sh.fresh := by
    simp [hsh', Shared.allocate, Shared.setEntry]
  have hstored : ∀ e, Stored (h ++ [.commit c sh.fresh]) e ↔ Stored h e := by simp [Stored]
  have hcommit : ∀ b e, .commit b e ∈ h ++ [.commit c sh.fresh] ↔
      Event.commit b e ∈ h ∨ b = c ∧ e = sh.fresh := by simp
  have hold : ∀ b e, Event.commit b e ∈ h → b ≠ c ∧ e ≠ sh.fresh := by
    intro b e hb
    have hlt := (hinv.allocated b e hb).2
    refine ⟨?_, by omega⟩
    rintro rfl
    exact hinv.filled b e hb hentry
  have hne : ∀ e, Stored h e → e ≠ sh.fresh := by
    intro e he
    obtain ⟨b, hb⟩ := hinv.known e he
    exact (hold b e hb).2
  have hclock : sh'.clock = sh.clock := by
    unfold Shared.clock
    rw [hlck]
    cases hl : sh.lck with
    | unlocked k => rfl
    | locked e => simp [hother e (hne e (hinv.installed e hl).1)]
  have hext : Ext kind h sh (h ++ [.commit c sh.fresh]) sh' := by
    refine ⟨fun _ he => List.mem_append_left _ he, hclock.ge, ?_, ?_, ?_, ?_,
      fun e he => .inl ((hstored e).mp he), ?_⟩
    · simp [Shared.Dead, Shared.Held, hclock, hlck]
    · intro e he
      rw [hother e (hne e (hinv.done e he))]
      exact he
    · rintro b e y hb ⟨k, hcount, hle⟩
      exact ⟨k, by rw [hother e (hold b e hb).2]; exact hcount, hle⟩
    · intro b u hu
      rw [hcurrent]
      exact hu
    · intro e he hl
      exact ⟨hl, by rw [hother e (hne e he)]⟩
  have hlt : ∀ x, w = .unlocked x → x ≤ sh'.clock := fun x hx => hclock.symm ▸ hw.le x hx
  refine ⟨hext, ⟨?_, ?_, ?_, ?_, ?_, ?_, ?_, ?_⟩,
    ⟨?_, Nat.succ_pos _, ?_, ?_, ?_, ?_, ?_, ?_, ?_, ?_⟩⟩
  · intro e hl
    have hinst := hinv.installed e hl
    rw [hstored, hother e (hne e hinst.1)]
    exact hinst
  · intro e he
    have he := (hstored e).mp he
    rw [hother e (hne e he)]
    exact hinv.stored e he
  · intro e he
    by_cases hf : e = sh.fresh
    · subst hf
      simp [hself] at he
    · rw [hother e hf] at he
      exact (hstored e).mpr (hinv.done e he)
  · intro e
    by_cases hf : e = sh.fresh
    · subst hf
      rw [hself]
      cases w with
      | locked k => exact .inl rfl
      | unlocked x => exact .inr ⟨x, rfl, hlt x rfl⟩
    · rw [hother e hf, hclock]
      exact hinv.counter e
  · intro e he
    exact (hstored e).mpr (hinv.runs e (by simpa using he))
  · simpa [storedDescriptors] using hinv.nodup
  · simpa [unlockedWords] using hinv.words
  · rw [hclock]
    simpa [unlockedWords] using hinv.words_le
  · intro e he
    obtain ⟨b, hb⟩ := hinv.known e ((hstored e).mp he)
    exact ⟨b, List.mem_append_left _ hb⟩
  · intro b e hb
    have hfresh : sh'.fresh = sh.fresh + 1 := rfl
    have hpos := hinv.fresh
    rcases (hcommit b e).mp hb with hb | ⟨rfl, rfl⟩
    · have hlt := hinv.allocated b e hb
      omega
    · omega
  · intro b e hb
    rcases (hcommit b e).mp hb with hb | ⟨rfl, rfl⟩
    · rw [hentries b (hold b e hb).1]
      exact hinv.filled b e hb
    · simp [hown]
  · intro b b' e hb hb'
    rcases (hcommit b e).mp hb with hb | ⟨rfl, rfl⟩ <;>
      rcases (hcommit b' _).mp hb' with hb' | ⟨hbc, heq⟩
    · exact hinv.call_unique b b' e hb hb'
    · exact absurd heq (hold b e hb).2
    · exact absurd rfl (hold b' _ hb').2
    · exact hbc.symm
  · intro b e e' hb hb'
    rcases (hcommit b e).mp hb with hb | ⟨rfl, rfl⟩ <;>
      rcases (hcommit b e').mp hb' with hb' | ⟨heq, rfl⟩
    · exact hinv.desc_unique b e e' hb hb'
    · exact absurd heq (hold b e hb).1
    · exact absurd rfl (hold b e' hb').1
    · rfl
  · intro b
    by_cases hb : b = c
    · subst hb
      rw [hown]
      exact (hcommit b sh.fresh).mpr (.inr ⟨rfl, rfl⟩)
    · rw [hentries b hb]
      exact hext.entryOk hinv (hinv.entry b)
  · intro b u hu
    rw [hcurrent] at hu
    exact hext.seen (hinv.current b u hu)
  · intro b e hb ht
    rw [hcurrent]
    rcases (hcommit b e).mp hb with hb | ⟨rfl, rfl⟩
    · exact hext.aimOk hinv hb ht (hinv.aim b e hb ht)
    · have hnew : ¬ Stored (h ++ [.commit b sh.fresh]) sh.fresh :=
        fun hs => hne sh.fresh ((hstored sh.fresh).mp hs) rfl
      rw [hk ht]
      cases w with
      | locked k => exact hnew
      | unlocked x => exact ⟨⟨x, by rw [hself, firstCounter], le_rfl⟩, fun hs => absurd hs hnew⟩
  · intro b ok hb
    obtain ⟨e, he, hv⟩ := hinv.reports b ok (by simpa using hb)
    exact ⟨e, List.mem_append_left _ he, hext.verdict hinv he hv⟩

/-! ## Every step preserves the invariant -/

/-- A step that emits `es` extends the shared memory and keeps its invariant. -/
def Evolves (kind : ι → Kind) (h : List (Event ι)) (sh : Shared ι) (es : List (Event ι))
    (sh' : Shared ι) : Prop :=
  Ext kind h sh (h ++ es) sh' ∧ SharedInv kind (h ++ es) sh'

/-- A step that emits nothing. -/
theorem Evolves.of_silent (hstep : Ext kind h sh h sh' ∧ SharedInv kind h sh') :
    Evolves kind h sh [] sh' := by
  simpa [Evolves] using hstep

/-- A step that changes only the position of a process. -/
theorem SharedInv.evolves_refl (hinv : SharedInv kind h sh) : Evolves kind h sh [] sh :=
  ⟨.of_events (by simp), by simpa using hinv⟩

/-- Running a stored descriptor keeps the invariant, and the process knows at the next position what
it needs there. -/
theorem SharedInv.stepBody (hinv : SharedInv kind h sh) {d : Nat} {b : Body}
    {es : List (Event ι)} {next : Option Body} (hstep : sh.stepBody d b = (es, sh', next))
    (hb : BodyOk h sh d b) :
    Evolves kind h sh es sh' ∧ Stored (h ++ es) d ∧
      ∀ b', next = some b' → BodyOk (h ++ es) sh' d b' := by
  cases b with
  | run =>
      cases hstep
      have hevol := hinv.runs_event hb
      refine ⟨hevol, hevol.1.stored hb, ?_⟩
      rintro b' ⟨⟩
      exact hevol.1.stored hb
  | finish =>
      cases hstep
      have hevol := Evolves.of_silent (hinv.setDone hb)
      refine ⟨hevol, hevol.1.stored hb, ?_⟩
      rintro b' ⟨⟩
      exact ⟨hevol.1.stored hb, by simp [Shared.setDone]⟩
  | clear =>
      cases hstep
      have hevol := hinv.evolves_refl
      refine ⟨hevol, hevol.1.stored hb.1, ?_⟩
      intro b' hb'
      split at hb'
      · cases hb'
        exact ⟨hevol.1.stored hb.1, hb.2⟩
      · cases hb'
  | clearCount =>
      cases hstep
      have hevol := hinv.evolves_refl
      refine ⟨hevol, hevol.1.stored hb.1, ?_⟩
      rintro b' ⟨⟩
      exact ⟨hevol.1.stored hb.1, hb.2, fun _ => rfl⟩
  | clearSwap n =>
      obtain ⟨hd, hdone, hn⟩ := hb
      simp only [Shared.stepBody] at hstep
      split at hstep
      · rename_i hl
        cases hstep
        have hevol : Evolves kind h sh _ _ := hinv.unlock hl hdone (hn hl)
        exact ⟨hevol, hevol.1.stored hd, by simp⟩
      · cases hstep
        have hevol := hinv.evolves_refl
        exact ⟨hevol, hevol.1.stored hd, by simp⟩

/-- A word that `try_lock_result` committed and the process has read leads to a position whose
requirements hold. -/
theorem PosOk.first {f : Frame ι} {w : Entry} (hw : Seen h sh w)
    (hk : kind f.call = .tryLock → (sh.calls f.call).current = some w) :
    PosOk kind h sh f (firstPos (kind f.call) w) := by
  cases hkind : kind f.call with
  | withLock => exact ⟨hkind, hw⟩
  | tryLock =>
      cases w with
      | unlocked x => exact ⟨hkind, hk hkind⟩
      | locked e => exact fun _ => ⟨e, hk hkind⟩

/-- A call that goes on after helping. -/
theorem PosOk.after_help (hinv : SharedInv kind h sh) {f : Frame ι}
    (hc : .commit f.call f.desc ∈ h) (hb : Blocked kind sh f.call) :
    PosOk kind h sh f (afterHelp (kind f.call)) := by
  cases hkind : kind f.call with
  | withLock => exact hkind
  | tryLock =>
      obtain ⟨e, he⟩ := hb hkind
      have haim := hinv.aim f.call f.desc hc hkind
      rw [he] at haim
      exact ⟨haim, hkind, _, he, by simp⟩

/-- Every step of a call that has its descriptor keeps the invariant. -/
theorem SharedInv.stepPos [DecidableEq ι] (hinv : SharedInv kind h sh) {f : Frame ι} {p : Pos}
    (hc : .commit f.call f.desc ∈ h) (hp : PosOk kind h sh f p) :
    Evolves kind h sh (sh.stepPos (kind f.call) f p).1 (sh.stepPos (kind f.call) f p).2.1 ∧
      ControlOk kind (h ++ (sh.stepPos (kind f.call) f p).1) (sh.stepPos (kind f.call) f p).2.1
        (sh.stepPos (kind f.call) f p).2.2 := by
  have hstay : ∀ {q}, PosOk kind h sh f q →
      Evolves kind h sh [] sh ∧ ControlOk kind (h ++ []) sh (.inside f q) := by
    intro q hq
    refine ⟨hinv.evolves_refl, ?_⟩
    rw [List.append_nil]
    exact ⟨hc, hq⟩
  have hdesc : f.desc ≠ 0 := (hinv.allocated _ _ hc).1.ne'
  cases p with
  | tryRead x =>
      refine hstay ?_
      split
      · exact hp
      · rename_i hne
        exact ⟨x, hp, .of_ne ((hinv.current _ _ hp.2).le x rfl) hne⟩
  | tryCas x =>
      have haim := hinv.aim f.call f.desc hc hp.1
      rw [hp.2] at haim
      by_cases hl : sh.lck = .unlocked x
      · have hstep := hinv.store hl hc haim.1 haim.2 fun _ => hp.2
        simp only [Shared.stepPos, if_pos hl]
        refine ⟨hstep, hstep.1.hist _ hc, x, hstep.1.trying hp, ?_⟩
        exact .of_held (((hinv.current _ _ hp.2).le x rfl).trans hstep.1.clock) ⟨_, rfl⟩
      · simp only [Shared.stepPos, if_neg hl]
        exact hstay ⟨x, hp, .of_ne ((hinv.current _ _ hp.2).le x rfl) hl⟩
  | tryAfter =>
      refine hstay ⟨hp, fun hl => (hinv.installed _ hl).1, ?_⟩
      exact fun hd => hinv.stored _ hd
  | tryDone seen =>
      obtain ⟨⟨x, ht, hdead⟩, hseen, hst⟩ := hp
      refine hstay ?_
      split
      · rename_i hor
        simp only [Bool.or_eq_true, decide_eq_true_eq] at hor
        rcases hor with hdone | heq
        · exact hinv.done _ hdone
        · exact hseen heq
      · rename_i hor
        simp only [Bool.or_eq_true, decide_eq_true_eq, not_or] at hor
        refine ⟨?_, ht.1, _, ht.2, by rintro y ⟨⟩; exact hdead⟩
        intro hd
        rcases hst hd with heq | hdone
        · exact hor.2 heq
        · exact hor.1 hdone
  | withCount w =>
      cases w with
      | locked e => exact hstay ⟨hp.1, hp.2, by simp⟩
      | unlocked x =>
          refine hstay ?_
          split
          · rename_i hlt
            exact ⟨hp.1, hp.2, hlt⟩
          · rename_i hlt
            refine ⟨hp.1, hp.2, ?_⟩
            rintro y ⟨⟩
            cases hcount : (sh.descs f.desc).counter with
            | locked d => simp [hcount, Entry.lt] at hlt
            | unlocked k => exact ⟨k, hcount, by simpa [hcount, Entry.lt] using hlt⟩
  | withBump old x =>
      obtain ⟨hk, hw, hlt⟩ := hp
      by_cases heq : (sh.descs f.desc).counter = old
      · subst heq
        have hstep := Evolves.of_silent (hinv.setCounter (hw.le x rfl) hlt)
        simp only [Shared.stepPos, if_true]
        refine ⟨hstep, hstep.1.hist _ hc, hk, hstep.1.seen hw, ?_⟩
        rintro _ ⟨⟩
        exact ⟨x, by simp [Shared.setCounter], le_rfl⟩
      · simp only [Shared.stepPos, if_neg heq]
        refine hstay ⟨hk, hinv.seen_counter f.desc, ?_⟩
        intro y hy
        exact ⟨y, hy, le_rfl⟩
  | withTest w =>
      obtain ⟨hk, hw, hcount⟩ := hp
      refine hstay ?_
      split
      · rename_i hor
        simp only [Bool.or_eq_true, decide_eq_true_eq] at hor
        rcases hor with hdone | heq
        · exact hinv.done _ hdone
        · exact hw.locked _ heq hdesc
      · rename_i hor
        simp only [Bool.or_eq_true, decide_eq_true_eq, not_or] at hor
        cases w with
        | locked e => exact fun ht => by simp [hk] at ht
        | unlocked x =>
            refine ⟨hk, hcount x rfl, fun hd => ?_⟩
            exact (hw.dead x f.desc rfl hd).resolve_right hor.1
  | withRead x =>
      refine hstay ?_
      split
      · exact hp
      · exact hp.1
  | withCas x =>
      by_cases hl : sh.lck = .unlocked x
      · have hstep := hinv.store hl hc hp.2.1 hp.2.2 fun ht => by simp [hp.1] at ht
        simp only [Shared.stepPos, if_pos hl]
        exact ⟨hstep, hstep.1.hist _ hc, List.mem_append_right _ (List.mem_singleton.mpr rfl)⟩
      · simp only [Shared.stepPos, if_neg hl]
        exact hstay hp.1
  | withAgain => exact hstay ⟨hp, hinv.seen_lck⟩
  | wantHelp e => exact hstay ⟨hp, trivial⟩
  | help e s =>
      obtain ⟨hb, hs⟩ := hp
      cases s with
      | look =>
          refine hstay ?_
          split
          · exact ⟨hb, trivial⟩
          · exact .after_help hinv hc hb
      | check =>
          refine hstay ?_
          split
          · rename_i hl
            exact ⟨hb, (hinv.installed e hl).1⟩
          · exact .after_help hinv hc hb
      | body b =>
          rcases hstep : sh.stepBody e b with ⟨es, sh', next⟩
          obtain ⟨hevol, _, hnext⟩ := hinv.stepBody hstep hs
          simp only [Shared.stepPos, hstep]
          refine ⟨hevol, hevol.1.hist _ hc, ?_⟩
          cases next with
          | none => exact .after_help hevol.2 (hevol.1.hist _ hc) (hevol.1.blocked hb)
          | some b' => exact ⟨hevol.1.blocked hb, hnext b' rfl⟩
  | body b =>
      rcases hstep : sh.stepBody f.desc b with ⟨es, sh', next⟩
      obtain ⟨hevol, hd, hnext⟩ := hinv.stepBody hstep hp
      simp only [Shared.stepPos, hstep]
      refine ⟨hevol, hevol.1.hist _ hc, ?_⟩
      cases next with
      | none => exact hd
      | some b' => exact hnext b' rfl
  | retire ok => exact ⟨hinv.report hc hp f.own, trivial⟩

/-- Every step of a process keeps the invariant. -/
theorem SharedInv.stepControl [DecidableEq ι] (hinv : SharedInv kind h sh) {x x' : Control ι}
    {es : List (Event ι)} (hstep : sh.stepControl kind x = some (es, sh', x'))
    (hx : ControlOk kind h sh x) :
    Evolves kind h sh es sh' ∧ ControlOk kind (h ++ es) sh' x' := by
  cases x with
  | idle => cases hstep
  | commit c w =>
      simp only [Shared.stepControl] at hstep
      split at hstep
      · rename_i hnone
        cases hstep
        have hevol := Evolves.of_silent (hinv.setCurrent hnone hx.1 hx.2)
        exact ⟨hevol, hevol.1.seen hx.2, fun _ => by simp [Shared.setCurrent]⟩
      · rename_i w' hcur
        cases hstep
        have hevol := hinv.evolves_refl
        exact ⟨hevol, hevol.1.seen (hinv.current c w' hcur), fun _ => hcur⟩
  | alloc c w =>
      have hentry := hinv.entry c
      simp only [Shared.stepControl] at hstep
      split at hstep
      · rename_i hempty
        cases hstep
        have hevol : Evolves kind h sh _ _ := hinv.allocate hempty hx.1 hx.2
        refine ⟨hevol, List.mem_append_right _ (List.mem_singleton.mpr rfl), .first ?_ ?_⟩
        · exact hevol.1.seen hx.1
        · exact fun hk => hevol.1.current c w (hx.2 hk)
      · cases hstep
        have hevol := hinv.evolves_refl
        exact ⟨hevol, hevol.1.seen hx.1, hx.2⟩
      · rename_i ok heq
        cases hstep
        rw [heq] at hentry
        obtain ⟨d, hc, hv⟩ := hentry
        exact ⟨hinv.report hc hv false, trivial⟩
  | reload c w =>
      have hentry := hinv.entry c
      simp only [Shared.stepControl] at hstep
      split at hstep
      · cases hstep
      · rename_i d heq
        cases hstep
        rw [heq] at hentry
        have hevol := hinv.evolves_refl
        exact ⟨hevol, hevol.1.hist _ hentry, .first (hevol.1.seen hx.1) hx.2⟩
      · rename_i ok heq
        cases hstep
        rw [heq] at hentry
        obtain ⟨d, hc, hv⟩ := hentry
        exact ⟨hinv.report hc hv false, trivial⟩
  | inside f p =>
      have hpos := hinv.stepPos hx.1 hx.2
      have heq : sh.stepPos (kind f.call) f p = (es, sh', x') := Option.some.inj hstep
      rwa [heq] at hpos

/-- The invariant holds initially. -/
theorem Inv.initial (kind : ι → Kind) : Inv kind [] (initial : State ι π) where
  shared := by
    refine ⟨⟨?_, ?_, ?_, ?_, ?_, ?_, ?_, ?_⟩, ⟨?_, ?_, ?_, ?_, ?_, ?_, ?_, ?_, ?_, ?_⟩⟩ <;>
      simp [LockWord.initial, Stored, storedDescriptors, unlockedWords, EntryOk]
  control _ := trivial

/-- Every step preserves the invariant. -/
theorem Inv.step [DecidableEq ι] [DecidableEq π] {st st' : State ι π} {a : Action ι π}
    {es : List (Event ι)} (hinv : Inv kind h st) (hstep : next kind a st = some (es, st')) :
    Inv kind (h ++ es) st' := by
  have hevol := hinv.shared.evolves_refl
  cases a with
  | start p c =>
      simp only [next] at hstep
      split at hstep
      · rename_i hk
        cases hstep
        refine hinv.move hevol.1 hevol.2 ⟨hevol.1.seen hinv.shared.seen_lck, ?_⟩
        intro ht
        simp [hk] at ht
      · rename_i hk
        cases hstep
        exact hinv.move hevol.1 hevol.2 ⟨hk, hevol.1.seen hinv.shared.seen_lck⟩
      · cases hstep
  | step p =>
      simp only [next, Option.map_eq_some_iff] at hstep
      obtain ⟨⟨es, sh', x⟩, hstep, heq⟩ := hstep
      cases heq
      obtain ⟨hevol, hx⟩ := hinv.shared.stepControl hstep (hinv.control p)
      exact hinv.move hevol.1 hevol.2 hx
  | reenter p =>
      simp only [next] at hstep
      split at hstep
      · split at hstep
        · cases hstep
          exact hinv.move hevol.1 hevol.2 trivial
        · cases hstep
      · cases hstep
  | skipHelp p =>
      simp only [next] at hstep
      split at hstep
      · rename_i f e hp
        cases hstep
        have hx := hinv.control p
        rw [hp] at hx
        have hx := hevol.1.control hinv.shared hx
        exact hinv.move hevol.1 hevol.2 ⟨hx.1, .after_help hevol.2 hx.1 hx.2⟩
      · cases hstep

/-- The lock word after an event. -/
def written (w : Entry) : Event ι → Entry
  | .wrote w' => w'
  | _ => w

/-- What a step does to the lock word: it takes the words that the step emits, and a step that changes
it leaves the descriptors alone. -/
def WordStep (sh : Shared ι) (es : List (Event ι)) (sh' : Shared ι) : Prop :=
  sh'.lck = es.foldl written sh.lck ∧ (sh'.lck = sh.lck ∨ sh'.descs = sh.descs)

/-- Running a descriptor changes the lock word only in the compare-exchange of `clear`. -/
theorem stepBody_word (sh : Shared ι) (d : Nat) (b : Body) :
    WordStep sh (sh.stepBody d b).1 (sh.stepBody d b).2.1 := by
  cases b <;> simp only [Shared.stepBody]
  case clearSwap n =>
      split
      · exact ⟨rfl, .inr rfl⟩
      · exact ⟨rfl, .inl rfl⟩
  all_goals exact ⟨rfl, .inl rfl⟩

/-- A call changes the lock word only when it stores its descriptor or runs one. -/
theorem stepPos_word [DecidableEq ι] (sh : Shared ι) (k : Kind) (f : Frame ι) (p : Pos) :
    WordStep sh (sh.stepPos k f p).1 (sh.stepPos k f p).2.1 := by
  cases p with
  | tryCas x | withCas x =>
      simp only [Shared.stepPos]
      split
      · exact ⟨rfl, .inr rfl⟩
      · exact ⟨rfl, .inl rfl⟩
  | withCount w => cases w <;> exact ⟨rfl, .inl rfl⟩
  | withBump old x =>
      simp only [Shared.stepPos]
      split <;> exact ⟨rfl, .inl rfl⟩
  | help e s =>
      cases s with
      | look | check => exact ⟨rfl, .inl rfl⟩
      | body b => exact stepBody_word sh e b
  | body b => exact stepBody_word sh f.desc b
  | retire ok =>
      simp only [Shared.stepPos]
      split <;> exact ⟨rfl, .inl rfl⟩
  | _ => exact ⟨rfl, .inl rfl⟩

/-- What any step does to the lock word. -/
theorem next_word [DecidableEq ι] [DecidableEq π] {st st' : State ι π} {a : Action ι π}
    {es : List (Event ι)} (hstep : next kind a st = some (es, st')) :
    WordStep st.shared es st'.shared := by
  cases a with
  | start p c =>
      simp only [next] at hstep
      split at hstep <;> cases hstep <;> exact ⟨rfl, .inl rfl⟩
  | step p =>
      simp only [next, Option.map_eq_some_iff] at hstep
      obtain ⟨⟨es, sh', x⟩, hstep, heq⟩ := hstep
      cases heq
      cases hp : st.control p with
      | idle =>
          rw [hp] at hstep
          cases hstep
      | inside f q =>
          rw [hp] at hstep
          have heq : st.shared.stepPos (kind f.call) f q = (es, sh', x) := Option.some.inj hstep
          have hword := stepPos_word st.shared (kind f.call) f q
          rwa [heq] at hword
      | commit c w | alloc c w | reload c w =>
          rw [hp] at hstep
          simp only [Shared.stepControl] at hstep
          split at hstep <;> cases hstep <;> exact ⟨rfl, .inl rfl⟩
  | reenter p =>
      simp only [next] at hstep
      split at hstep
      · split at hstep <;> cases hstep
        exact ⟨rfl, .inl rfl⟩
      · cases hstep
  | skipHelp p =>
      simp only [next] at hstep
      split at hstep <;> cases hstep
      exact ⟨rfl, .inl rfl⟩

/-- The lock word is the last word written, so the `wrote` events are exactly the words it took. -/
theorem lck_eq_written [DecidableEq ι] [DecidableEq π] {st : State ι π}
    (hexec : Exec (system π kind) h st) : st.shared.lck = h.foldl written (.unlocked 0) := by
  refine Exec.invariant (P := fun h st => st.shared.lck = h.foldl written (.unlocked 0)) ?_ ?_ hexec
  · rintro _ rfl
    rfl
  · intro h s a es s' _ hlck hstep
    rw [List.foldl_append, ← hlck]
    exact (next_word hstep).1

/-! ## The protocol -/

end Verlib.Flock.LockWord
