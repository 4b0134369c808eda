import Verlib.SnapshotList.Runs

/-!
# Every step keeps what is known

Each step keeps the invariant of the memory, what the history says of it, and what the threads know. So all this holds
in every run.
-/

namespace Verlib.SnapshotList

open Interleaving Interleaving.Versions Indirect
open SortedList (Op root)

variable {K V R ι : Type} [LinearOrder K]

section

variable {h : List (Event K V R ι)} {m m' : Memory K V ι} {c : ι} {p i n ls : Nat} {o : Op K V}
  {pc pc' : Pc K V R} {es : List (What K V R ι)}

omit [LinearOrder K] in
/-- Stamps are no other events. -/
theorem stampEvents_ne {k k' t : Nat} {w : What K V R ι} (hw : w.thread ≠ none) :
    ⟨k, w⟩ ∉ (stampEvents m p i (some t)).map (Event.mk k') := by
  intro hmem
  unfold stampEvents at hmem
  split at hmem
  · cases List.mem_singleton.mp hmem
    exact hw rfl
  · cases hmem

/-- The events of a step. -/
theorem Step.thread (hstep : Step c m pc es m' pc') : ∀ w ∈ es, w.thread = none ∨ w.thread = some c := by
  have hstamp : ∀ {p i t}, ∀ w ∈ stampEvents (R := R) m p i t, w.thread = none ∨ w.thread = some c := by
    intro p i t w hw
    unfold stampEvents at hw
    split at hw
    · rw [List.mem_singleton.mp hw]
      exact .inl rfl
    · cases hw
  cases hstep with
  | stamp hs hstored => exact hstamp
  | readStamp hs => exact hstamp
  | call o => exact fun w hw => .inr (List.mem_singleton.mp hw ▸ rfl)
  | withSnapshot f => exact fun w hw => .inr (List.mem_singleton.mp hw ▸ rfl)
  | ret => exact fun w hw => .inr (List.mem_singleton.mp hw ▸ rfl)
  | began hts hquiet hcalls howned hclock => exact fun w hw => .inr (List.mem_singleton.mp hw ▸ rfl)
  | answer => exact fun w hw => .inr (List.mem_singleton.mp hw ▸ rfl)
  | _ => exact fun w hw => absurd hw List.not_mem_nil

/-- Whoever has stored a version has called. -/
theorem Records.author_lt (hrec : Records h m) (ha : m.Author p i c n o) : n < m.calls := by
  obtain ⟨k, -, he⟩ := hrec.called p i c n o ha
  exact hrec.numbers _ he

/-- The events of a thread that returns. -/
theorem Records.ret {l : Update} (hrec : Records h m) (hcall : Calling h c n o) (hw : Written m c n o l.stored) :
    Records (h ++ [⟨m.versions.clock, .ret c n l.stored⟩]) m := by
  obtain ⟨⟨k, he⟩, -⟩ := hcall
  refine hrec.note ⟨hrec.clocks, ⟨k, o, he⟩, ?_⟩ (hrec.numbers _ he) (fun heq => by cases heq) ?_ fun _ _ _ heq => by cases heq
  · cases hl : l.stored with
    | true =>
        rw [hl] at hw
        obtain ⟨p, i, ha, hs⟩ := hw
        obtain ⟨t, ht⟩ := Option.ne_none_iff_exists'.mp hs
        obtain ⟨k, he⟩ := hrec.noted p i c n o t ha ht
        exact iff_of_true rfl ⟨k, o, t, he⟩
    | false =>
        rw [hl] at hw
        refine iff_of_false (fun heq => by cases heq) fun hst => ?_
        obtain ⟨k, o', t, he⟩ := hst
        obtain ⟨p, i, ha, -⟩ := hrec.real k c n o' t he
        exact hw p i o' ha
  · intro c' n' b heq p i o' ha
    cases heq
    cases hl : l.stored with
    | true =>
        rw [hl] at hw
        obtain ⟨q, j, hb, hs⟩ := hw
        obtain ⟨rfl, rfl⟩ := hrec.one p i q j c n o' o ha hb
        exact hs
    | false =>
        rw [hl] at hw
        exact absurd ha (hw p i o')

/-- A step keeps what the history says of the memory, and what its thread knows of the history. -/
theorem Step.records (hstep : Step c m pc es m' pc') (hinv : Inv m) (hrec : Records h m) (hknown : pc.Known c m)
    (htold : pc.Told c h m) : Records (h ++ es.map (Event.mk m'.versions.clock)) m' ∧
      pc'.Told c (h ++ es.map (Event.mk m'.versions.clock)) m' := by
  have hempty : h ++ ([] : List (What K V R ι)).map (Event.mk m'.versions.clock) = h := List.append_nil h
  have hnew : ∀ {w : What K V R ι} {k : Nat}, ⟨k, w⟩ ∈ h ++ [w].map (Event.mk k) := fun {w k} =>
    List.mem_append_right _ List.mem_cons_self
  cases hstep with
  | call o =>
      have hrec' := hrec.quiet hinv (quiet_calls m _) (Nat.le_succ _)
      refine ⟨hrec'.note ⟨hrec.clocks, fun e he => (hrec.numbers e he).ne⟩ (Nat.lt_succ_self _) (fun heq => by cases heq)
        (fun _ _ _ heq => by cases heq) (fun _ _ _ heq => by cases heq), ⟨⟨_, hnew⟩, fun k b he => ?_⟩, fun p i o' ha => ?_⟩
      · obtain he | he := List.mem_append.mp he
        · exact absurd (hrec.numbers _ he) (lt_irrefl _)
        · cases List.mem_singleton.mp he
      · exact absurd (hrec.author_lt ha) (lt_irrefl _)
  | withSnapshot f =>
      have hrec' := hrec.quiet hinv (quiet_calls m _) (Nat.le_succ _)
      refine ⟨hrec'.note ⟨hrec.clocks, fun e he => (hrec.numbers e he).ne⟩ (Nat.lt_succ_self _) (fun heq => by cases heq)
        (fun _ _ _ heq => by cases heq) (fun _ _ _ heq => by cases heq), ⟨_, hnew⟩, fun k ls he => ?_⟩
      obtain he | he := List.mem_append.mp he
      · exact absurd (hrec.numbers _ he) (lt_irrefl _)
      · cases List.mem_singleton.mp he
  | @quiet n o l l' _ hquiet hcalls howned hstored =>
      rw [hempty]
      refine ⟨hrec.quiet hinv hquiet hcalls.ge, htold.1, ?_⟩
      have hw := htold.2
      rw [hstored]
      cases hl : l.stored with
      | true =>
          rw [hl] at hw
          obtain ⟨p, i, ha, hs⟩ := hw
          refine ⟨p, i, (hquiet.author ..).mpr ha, ?_⟩
          rw [hquiet.stamp]
          exact hs
      | false =>
          rw [hl] at hw
          exact fun p i o' ha => hw p i o' ((hquiet.author ..).mp ha)
  | @load n o l p hstored =>
      rw [hempty]
      refine ⟨hrec, htold.1, ?_⟩
      have hw := htold.2
      rw [hstored] at hw ⊢
      exact hw
  | @store n o l l' p _ hstored hstored' hinv' hinstall hlock =>
      rw [hempty]
      obtain ⟨hcall, hw⟩ := htold
      rw [hstored] at hw
      refine ⟨hrec.install hinv hinv' hinstall hw hcall.1 hcall.2, hcall, ?_⟩
      rw [hstored']
      exact ⟨_, rfl, (hinstall.author ..).mpr (.inr ⟨rfl, rfl, rfl⟩)⟩
  | ret => exact ⟨hrec.ret htold.1 htold.2, trivial⟩
  | setting =>
      rw [hempty]
      exact ⟨hrec, htold⟩
  | @set n o l l' p i s hs hstored =>
      rw [hempty]
      refine ⟨hrec, htold.1, ?_⟩
      have hw := htold.2
      rw [hstored]
      cases hl : l.stored with
      | true =>
          rw [hl] at hw
          obtain ⟨j, rfl, ha⟩ := hw
          exact ⟨p, j, ha, hs⟩
      | false =>
          rw [hl] at hw
          exact hw
  | @stamp n o l l' p i t s hstamp hstored =>
      have hothers : ∀ k b, (⟨k, .ret c n b⟩ : Event K V R ι) ∉
          (stampEvents m p i (some t)).map (Event.mk (m.stamped p i t).versions.clock) :=
        fun k b => stampEvents_ne fun heq => by cases heq
      refine ⟨hrec.stamp hinv hstamp, ⟨?_, fun k b he => ?_⟩, ?_⟩
      · obtain ⟨k, he⟩ := htold.1.1
        exact ⟨k, List.mem_append_left _ he⟩
      · exact (List.mem_append.mp he).elim (htold.1.2 k b) (hothers k b)
      · have hw := htold.2
        rw [hstored]
        cases hl : l.stored with
        | true =>
            rw [hl] at hw
            obtain ⟨j, rfl, ha⟩ := hw
            refine ⟨p, j, ha, ?_⟩
            rw [show (m.stamped p (j + 1) t).versions.stamp p (j + 1) = some t from setStamp_self]
            exact Option.some_ne_none t
        | false =>
            rw [hl] at hw
            exact hw
  | clock =>
      rw [hempty]
      obtain ⟨⟨k, he⟩, hb⟩ := htold
      exact ⟨hrec, ⟨k, hrec.clocks _ he, he⟩, hb⟩
  | @test n f ts =>
      rw [hempty]
      exact ⟨hrec, htold⟩
  | @began n f s ts _ hts hquiet hcalls howned hclock =>
      have htold : (∃ k ≤ ts, ⟨k, .withSnapshot c n f⟩ ∈ h) ∧ ∀ k ls, ⟨k, .began c n ls⟩ ∉ h := by
        obtain rfl | rfl := hts
        · exact htold
        · exact htold
      obtain ⟨⟨k, hk, he⟩, hb⟩ := htold
      have hrec' := hrec.quiet hinv hquiet hcalls.ge
      refine ⟨hrec'.note ⟨hrec'.clocks, hclock, ⟨k, hk, f, he⟩, hb⟩ (hrec'.numbers _ he) (fun heq => by cases heq)
        (fun _ _ _ heq => by cases heq) (fun _ _ _ heq => by cases heq), f, ⟨k, List.mem_append_left _ he⟩, ⟨_, hnew⟩, .refl⟩
  | @answer n ls r =>
      obtain ⟨f₀, hf, ⟨k, hb⟩, hfollows⟩ := htold
      refine ⟨hrec.note ⟨hrec.clocks, k, ls, hb⟩ (hrec.numbers _ hb) (fun heq => by cases heq)
        (fun _ _ _ heq => by cases heq) fun c' n' r' heq => ?_, trivial⟩
      cases heq
      exact ⟨f₀, ls, hf, ⟨k, hb⟩, hknown, hfollows⟩
  | @node n ls a f ha =>
      rw [hempty]
      obtain ⟨f₀, hf, hb, hfollows⟩ := htold
      exact ⟨hrec, f₀, hf, hb, hfollows.node ha⟩
  | read ha =>
      rw [hempty]
      exact ⟨hrec, htold⟩
  | readSetting =>
      rw [hempty]
      exact ⟨hrec, htold⟩
  | readSet =>
      rw [hempty]
      exact ⟨hrec, htold⟩
  | readStamp hstamp =>
      exact ⟨hrec.stamp hinv hstamp, Serving.stable htold hinv (hstamp.inv hinv) (hstamp.safe hinv).toExt hknown.1⟩
  | walk =>
      rw [hempty]
      exact ⟨hrec, htold⟩
  | @value n ls p i f hp hcut hset =>
      rw [hempty]
      obtain ⟨f₀, hf, hb, hfollows⟩ := htold
      exact ⟨hrec, f₀, hf, hb, hfollows.load hp hset⟩

/-! ## The empty list -/

theorem Memory.Initial.path (hinit : m.Initial) (ls : Nat) : m.IsPath ls [root, 2] := by
  have hview : m.view ls root = 2 := by
    rw [Memory.view, cut_zero (hinit.last root)]
    exact hinit.first.2
  refine ⟨⟨?_, rfl, ⟨2, rfl, hinit.last_node⟩, ?_⟩, fun a ha => ?_⟩
  · exact Linked.chain_cons.mpr ⟨hview, List.isChain_singleton 2⟩
  · exact List.pairwise_pair.mpr ⟨by decide, hinit.first.1, .inl hinit.last_node⟩
  · rw [hinit.fresh]
    obtain rfl | ha := List.mem_cons.mp ha
    · decide
    · rw [List.mem_singleton.mp ha]
      decide

omit [LinearOrder K] in
theorem Memory.Initial.not_author (hinit : m.Initial) : ¬ m.Author p i c n o := by
  intro ha
  have hlt := ha.1
  rw [hinit.last p] at hlt
  exact absurd hlt (Nat.not_lt_zero i)

omit [LinearOrder K] in
theorem Memory.Initial.root_of_inner (hinit : m.Initial) {a : Nat} (ha : a < m.fresh) (hend : (m.nodes a).isEnd = false) :
    a = root := by
  rw [hinit.fresh] at ha
  match a, ha with
  | 0, _ =>
      rw [hinit.null] at hend
      cases hend
  | 1, _ => rfl
  | 2, _ =>
      rw [hinit.last_node] at hend
      cases hend

theorem Memory.Initial.inv (hinit : m.Initial) : Inv m where
  clock := hinit.clock.ge
  ordered := by
    refine ⟨fun p i hi => ?_, fun p i t hi ht => ?_, fun p i t hi ht => ?_, fun p i j t hij hj ht => ?_, fun p i hi => ?_⟩
    · obtain rfl : i = 0 := Nat.le_zero.mp (hi.trans_eq (hinit.last p))
      rw [hinit.born]
      exact Nat.zero_le _
    · obtain rfl : i = 0 := Nat.le_zero.mp (hi.trans_eq (hinit.last p))
      rw [hinit.stamp] at ht
      cases ht
      exact hinit.clock.ge
    · obtain rfl : i = 0 := Nat.le_zero.mp (hi.trans_eq (hinit.last p))
      rw [hinit.born]
      exact Nat.zero_le _
    · rw [hinit.last] at hj
      omega
    · rw [hinit.last] at hi
      omega
  first := hinit.stamp
  root_lt := hinit.fresh ▸ by decide
  root_inner := hinit.first.1
  paths ls _ := ⟨_, hinit.path ls⟩
  blank p _ := ⟨hinit.last p, hinit.removed p⟩
  targets p hp hend i hi := by
    obtain rfl : i = 0 := Nat.le_zero.mp (hi.trans_eq (hinit.last p))
    rw [hinit.root_of_inner hp hend, hinit.first.2, hinit.fresh]
    decide
  leads p hvis hend i hi _ := by
    obtain rfl : i = 0 := Nat.le_zero.mp (hi.trans_eq (hinit.last p))
    rw [hinit.root_of_inner hvis.1 hend, hinit.first.2]
    exact ⟨hinit.fresh ▸ by decide, .inr ⟨_, hinit.path _, by simp⟩⟩
  pending p _ hnone := by
    rw [hinit.last, hinit.stamp] at hnone
    cases hnone

theorem Memory.Initial.records (hinit : m.Initial) : Records ([] : List (Event K V R ι)) m where
  fits := .nil
  clocks _ he := by cases he
  numbers _ he := by cases he
  called _ _ _ _ _ ha := absurd ha hinit.not_author
  one _ _ _ _ _ _ _ _ ha := absurd ha hinit.not_author
  noted _ _ _ _ _ _ ha := absurd ha hinit.not_author
  real _ _ _ _ _ he := by cases he
  running _ _ _ _ _ ha := absurd ha hinit.not_author
  keys _ _ _ _ _ ha := absurd ha hinit.not_author
  answers _ _ _ _ he := by cases he
  replay ls _ := by
    refine ⟨fun _ => none, plays_nil.mpr rfl, fun k v => iff_of_false (fun heq => by cases heq) fun hc => ?_⟩
    obtain ⟨a, hon, hroot, hend, -⟩ := hc
    obtain rfl | ha := List.mem_cons.mp (hon.mem (hinit.path ls))
    · exact hroot rfl
    · rw [List.mem_singleton.mp ha, hinit.last_node] at hend
      cases hend

end

/-! ## Every run -/

variable [DecidableEq ι]

/-- What is kept in every run. -/
def reliance : Reliance (process : Process ι (Memory K V ι) (Pc K V R) (Choice K V R) (Event K V R ι)) Memory.Initial
    .idle where
  Inv h m := Inv m ∧ Records h m
  Known c h m pc := pc.Known c m ∧ pc.Told c h m
  Rely c x y := Rely c x.2 y.2 ∧ ∃ es, y.1 = x.1 ++ es ∧ Others c es
  initial m hinit := ⟨hinit.inv, hinit.records⟩
  initial_known _ _ _ := ⟨trivial, trivial⟩
  own c h m x p es m' p' hinv hknown hstep := by
    obtain ⟨⟨ws, m₁, p₁⟩, hthread, heq⟩ := Option.map_eq_some_iff.mp hstep
    cases heq
    obtain ⟨hs, hknown'⟩ := stepThread_step hinv.1 hknown.1 hthread
    obtain ⟨hrec, htold⟩ := hs.records hinv.1 hinv.2 hknown.1 hknown.2
    refine ⟨⟨hs.inv hinv.1, hrec⟩, ⟨hknown', htold⟩, fun d hd => ⟨hs.rely hinv.1 hd, _, rfl, fun e he heq => ?_⟩⟩
    obtain ⟨w, hw, rfl⟩ := List.mem_map.mp he
    have heq : w.thread = some d := heq
    obtain hnone | hc := hs.thread w hw
    · rw [hnone] at heq
      cases heq
    · rw [hc] at heq
      exact hd (Option.some.inj heq).symm
  stable d h m h' m' p hinv hinv' hrely hknown := by
    obtain ⟨hrely, es, rfl, hes⟩ := hrely
    exact ⟨hknown.1.stable hinv.1 hrely, hknown.2.stable hknown.1 hinv.1 hinv'.1 hrely hes⟩

end Verlib.SnapshotList
