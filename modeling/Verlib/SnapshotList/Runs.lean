import Verlib.SnapshotList.History

/-!
# Runs

Every step keeps what the history says of the memory.
-/

namespace Verlib.SnapshotList

open Interleaving Interleaving.Versions Indirect
open SortedList (Op root)

variable {K V R ι : Type} [LinearOrder K]

section

variable {h : List (Event K V R ι)} {m m' : Memory K V ι} {w : What K V R ι} {c : ι} {p i n t : Nat} {o : Op K V}

/-! ## Steps that give no stamp -/

/-- The memory changes, but no version is stored. -/
theorem Records.quiet (hrec : Records h m) (hinv : Inv m) (hquiet : Quiet m m') (hcalls : m.calls ≤ m'.calls) :
    Records h m' where
  fits := hrec.fits
  clocks e he := (hrec.clocks e he).trans hquiet.clock
  numbers e he := (hrec.numbers e he).trans_le hcalls
  called p i c n o ha := by
    rw [hquiet.born]
    exact hrec.called p i c n o ((hquiet.author ..).mp ha)
  one p i q j c n o o' ha hb := hrec.one p i q j c n o o' ((hquiet.author ..).mp ha) ((hquiet.author ..).mp hb)
  noted p i c n o t ha ht := by
    rw [hquiet.stamp] at ht
    exact hrec.noted p i c n o t ((hquiet.author ..).mp ha) ht
  real k c n o t he := by
    obtain ⟨p, i, ha, ht⟩ := hrec.real k c n o t he
    refine ⟨p, i, (hquiet.author ..).mpr ha, ?_⟩
    rw [hquiet.stamp]
    exact ht
  running p i c n o ha hnone := by
    rw [hquiet.stamp] at hnone
    exact hrec.running p i c n o ((hquiet.author ..).mp ha) hnone
  keys p i c n o ha hnone := by
    rw [hquiet.stamp] at hnone
    rw [hquiet.born]
    exact hrec.keys p i c n o ((hquiet.author ..).mp ha) hnone
  answers k c n r he := by
    obtain ⟨f, ls, hf, hls, hbegun, hfollows⟩ := hrec.answers k c n r he
    have hext := (hquiet.safe hinv).toExt
    exact ⟨f, ls, hf, hls, hbegun.stable hext, hfollows.stable hinv (hinv.quiet hquiet) hext hbegun⟩
  replay ls hls := by
    obtain ⟨map, hplays, hmap⟩ := hrec.replay ls hls
    exact ⟨map, hplays, fun k v => (hmap k v).trans (hquiet.still.contains hinv hls k v).symm⟩

/-- An event that is no stamp. -/
theorem Records.note (hrec : Records h m) (hfits : Fits h ⟨m.versions.clock, w⟩) (hnumber : w.number < m.calls)
    (hw : w.thread ≠ none)
    (hret : ∀ c n b, w = .ret c n b → ∀ p i o, m.Author p i c n o → m.versions.stamp p (i + 1) ≠ none)
    (hanswer : ∀ c n r, w = .answer c n r → ∃ f ls, (∃ k, ⟨k, .withSnapshot c n f⟩ ∈ h) ∧
      (∃ k, ⟨k, .began c n ls⟩ ∈ h) ∧ Begun m ls ∧ Follows m ls f (.ret r)) :
    Records (h ++ [⟨m.versions.clock, w⟩]) m := by
  have hold : ∀ {e : Event K V R ι}, e ∈ h → e ∈ h ++ [⟨m.versions.clock, w⟩] := fun he => List.mem_append_left _ he
  have hcases : ∀ {k : Nat} {w' : What K V R ι}, ⟨k, w'⟩ ∈ h ++ [⟨m.versions.clock, w⟩] → ⟨k, w'⟩ ∈ h ∨ w' = w := by
    intro k w' he
    refine (List.mem_append.mp he).imp_right fun he => ?_
    cases List.mem_singleton.mp he
    rfl
  have hstamp : ∀ {k c n o t}, ⟨k, .stamp c n o t⟩ ∈ h ++ [⟨m.versions.clock, w⟩] → ⟨k, .stamp c n o t⟩ ∈ h := by
    intro k c n o t he
    refine (hcases he).resolve_right fun heq => hw ?_
    rw [← heq]
    rfl
  have hsame : stamps (h ++ [⟨m.versions.clock, w⟩]) = stamps h := by
    rw [stamps, List.filterMap_append]
    cases w with
    | stamp c n o t => exact absurd rfl hw
    | _ => exact List.append_nil _
  refine ⟨hrec.fits.concat hfits, fun e he => ?_, fun e he => ?_, fun p i c n o ha => ?_, hrec.one,
    fun p i c n o t ha ht => ?_, fun k c n o t he => hrec.real k c n o t (hstamp he),
    fun p i c n o ha hnone k b he => ?_, fun p i c n o ha hnone k c' n' o' t he =>
      hrec.keys p i c n o ha hnone k c' n' o' t (hstamp he), fun k c n r he => ?_, ?_⟩
  · obtain he | he := List.mem_append.mp he
    · exact hrec.clocks e he
    · rw [List.mem_singleton.mp he]
  · obtain he | he := List.mem_append.mp he
    · exact hrec.numbers e he
    · rw [List.mem_singleton.mp he]
      exact hnumber
  · obtain ⟨k, hk, he⟩ := hrec.called p i c n o ha
    exact ⟨k, hk, hold he⟩
  · obtain ⟨k, he⟩ := hrec.noted p i c n o t ha ht
    exact ⟨k, hold he⟩
  · obtain he | heq := hcases he
    · exact hrec.running p i c n o ha hnone k b he
    · exact hret c n b heq.symm p i o ha hnone
  · have hthere : ∃ f ls, (∃ k, ⟨k, .withSnapshot c n f⟩ ∈ h) ∧ (∃ k, ⟨k, .began c n ls⟩ ∈ h) ∧ Begun m ls ∧
        Follows m ls f (.ret r) := by
      obtain he | heq := hcases he
      · exact hrec.answers k c n r he
      · exact hanswer c n r heq.symm
    obtain ⟨f, ls, ⟨k, hf⟩, ⟨k', hls⟩, hrest⟩ := hthere
    exact ⟨f, ls, ⟨k, hold hf⟩, ⟨k', hold hls⟩, hrest⟩
  · rw [hsame]
    exact hrec.replay

/-! ## Stores -/

/-- A store by a call that has stored nothing. -/
theorem Records.install (hrec : Records h m) (hinv : Inv m) (hinv' : Inv m') (hinstall : Install m m' p c n o)
    (hnew : ∀ q j o', ¬ m.Author q j c n o') (hcall : ∃ k, ⟨k, .call c n o⟩ ∈ h) (hret : ∀ k b, ⟨k, .ret c n b⟩ ∉ h) :
    Records h m' := by
  have hcases := hinstall.author
  have hborn : ∀ {q j d l o'}, m.Author q j d l o' →
      m'.versions.born q (j + 1) = m.versions.born q (j + 1) := fun ha => hinstall.ext.grows.born _ _ ha.1
  have hstamp : ∀ {q j d l o'}, m.Author q j d l o' →
      m'.versions.stamp q (j + 1) = m.versions.stamp q (j + 1) := fun ha => hinstall.stamp_old _ _ ha.1
  refine ⟨hrec.fits, fun e he => (hrec.clocks e he).trans_eq hinstall.clock.symm,
    fun e he => (hrec.numbers e he).trans_eq hinstall.calls.symm, fun q j d l o' ha => ?_,
    fun q j q' j' d l o₁ o₂ ha hb => ?_, fun q j d l o' t ha ht => ?_, fun k d l o' t he => ?_,
    fun q j d l o' ha hnone => ?_, fun q j d l o' ha hnone k d' l' o₂ t he hkey => ?_, fun k d l r he => ?_,
    fun ls hls => ?_⟩
  · obtain ha | ⟨rfl, rfl, heq⟩ := (hcases ..).mp ha
    · rw [hborn ha]
      exact hrec.called q j d l o' ha
    · cases heq
      obtain ⟨k, he⟩ := hcall
      rw [hinstall.born]
      exact ⟨k, hrec.clocks _ he, he⟩
  · obtain ha | ⟨rfl, rfl, heq⟩ := (hcases ..).mp ha
    · obtain hb | ⟨-, -, heq'⟩ := (hcases ..).mp hb
      · exact hrec.one q j q' j' d l o₁ o₂ ha hb
      · cases heq'
        exact absurd ha (hnew q j o₁)
    · cases heq
      obtain hb | ⟨rfl, rfl, -⟩ := (hcases ..).mp hb
      · exact absurd hb (hnew q' j' o₂)
      · exact ⟨rfl, rfl⟩
  · obtain ha | ⟨rfl, rfl, -⟩ := (hcases ..).mp ha
    · rw [hstamp ha] at ht
      exact hrec.noted q j d l o' t ha ht
    · rw [hinstall.stamp] at ht
      cases ht
  · obtain ⟨q, j, ha, ht⟩ := hrec.real k d l o' t he
    exact ⟨q, j, (hcases ..).mpr (.inl ha), (hstamp ha).trans ht⟩
  · obtain ha | ⟨-, -, heq⟩ := (hcases ..).mp ha
    · rw [hstamp ha] at hnone
      exact hrec.running q j d l o' ha hnone
    · cases heq
      exact hret
  · obtain ha | ⟨rfl, rfl, -⟩ := (hcases ..).mp ha
    · rw [hstamp ha] at hnone
      rw [hborn ha]
      exact hrec.keys q j d l o' ha hnone k d' l' o₂ t he hkey
    · -- all stamps of the history are at most the clock
      obtain ⟨q', j', ha', ht'⟩ := hrec.real k d' l' o₂ t he
      rw [hinstall.born]
      exact hinv.ordered.le_clock q' _ t ha'.1 ht'
  · obtain ⟨f, ls, hf, hls, hbegun, hfollows⟩ := hrec.answers k d l r he
    exact ⟨f, ls, hf, hls, hbegun.stable hinstall.ext, hfollows.stable hinv hinv' hinstall.ext hbegun⟩
  · obtain ⟨map, hplays, hmap⟩ := hrec.replay ls hls
    exact ⟨map, hplays, fun k v => (hmap k v).trans (hinstall.still.contains hinv hls k v).symm⟩

/-! ## Stamps -/

/-- A version without a stamp is the one of a pending update. -/
theorem Memory.Author.pending (ha : m.Author p i c n o) (hinv : Inv m) (hnone : m.versions.stamp p (i + 1) = none) :
    Pending m p i o := by
  have hstamp : Stampable m p (i + 1) m.versions.clock := ⟨hnone, ha.1, hinv.ordered.born_le p _ ha.1, le_rfl⟩
  obtain ⟨j, c', n', o', heq, hcall, hpend⟩ := hstamp.pending hinv
  cases heq
  rw [ha.2] at hcall
  cases hcall
  exact hpend

/-- The entries up to a stamp, when a version gets the stamp `t`. -/
theorem Records.replay_stamped (hrec : Records h m) (hinv : Inv m) (hstamp : Stampable m p (i + 1) t)
    (ha : m.Author p i c n o) {ls : Nat} (hls : zeroStamp ≤ ls) :
    ∃ map, Plays actOf (.changed true) (upTo (place (timeline (stamps h)) ((c, n, o), t)) ls) (fun _ => none) map ∧
      Represents map ((m.stamped p (i + 1) t).Contains ls) := by
  obtain ⟨map, hplays, hmap⟩ := hrec.replay ls hls
  by_cases hlt : ls < t
  · rw [upTo_place_of_lt hlt]
    refine ⟨map, hplays, fun k v => (hmap k v).trans ?_⟩
    exact exists_congr fun a => and_congr_left' (on_stamped_of_lt hinv hstamp.unset hls hlt).symm
  · have hle : t ≤ ls := not_lt.mp hlt
    have hpend := ha.pending hinv hstamp.unset
    have hp := hinv.lt_fresh hstamp.unset hstamp.le
    obtain ⟨map', hact, hmap'⟩ := (hpend.changes hp hinv hstamp.unset hls hstamp.born hle).act hmap
    refine ⟨map', hplays.place (timeline_sorted _) hle (fun x hx hgt m₀ m₁ m₂ h₁ h₂ => ?_) hact, hmap'⟩
    refine actOf_comm (fun hkey => ?_) h₁ h₂
    -- an update of the same key would have a smaller stamp
    obtain ⟨k, he⟩ := mem_stamps.mp ((timeline_perm _).mem_iff.mp hx)
    exact absurd ((hrec.keys p i c n o ha hstamp.unset k _ _ _ _ he hkey).trans hstamp.born) (not_le.mpr hgt)

/-- A version gets its stamp. -/
theorem Records.stamp (hrec : Records h m) (hinv : Inv m) (hstamp : Stampable m p i t) :
    Records (h ++ (stampEvents m p i (some t)).map (Event.mk m.versions.clock)) (m.stamped p i t) := by
  obtain ⟨j, c, n, o, rfl, hcall, hpend⟩ := hstamp.pending hinv
  have ha : m.Author p j c n o := ⟨hstamp.le, hcall⟩
  have hevents : stampEvents m p (j + 1) (some t) = [(.stamp c n o t : What K V R ι)] := by
    unfold stampEvents
    rw [hcall]
  rw [hevents]
  show Records (h ++ [⟨m.versions.clock, .stamp c n o t⟩]) _
  have hold : ∀ {e : Event K V R ι}, e ∈ h → e ∈ h ++ [⟨m.versions.clock, .stamp c n o t⟩] :=
    fun he => List.mem_append_left _ he
  have hcases : ∀ {k : Nat} {w' : What K V R ι}, ⟨k, w'⟩ ∈ h ++ [⟨m.versions.clock, .stamp c n o t⟩] →
      ⟨k, w'⟩ ∈ h ∨ w' = .stamp c n o t := by
    intro k w' he
    refine (List.mem_append.mp he).imp_right fun he => ?_
    cases List.mem_singleton.mp he
    rfl
  have hself : (m.stamped p (j + 1) t).versions.stamp p (j + 1) = some t := setStamp_self
  have hother : ∀ {q l : Nat}, ¬ (q = p ∧ l = j) →
      (m.stamped p (j + 1) t).versions.stamp q (l + 1) = m.versions.stamp q (l + 1) := by
    intro q l hne
    exact setStamp_of_ne fun heq => hne ⟨heq.1, Nat.succ.inj heq.2⟩
  -- versions that still have no stamp are others
  have hunset : ∀ {q l : Nat}, (m.stamped p (j + 1) t).versions.stamp q (l + 1) = none →
      ¬ (q = p ∧ l = j) ∧ m.versions.stamp q (l + 1) = none := by
    intro q l hnone
    have hne : ¬ (q = p ∧ l = j) := by
      intro heq
      rw [heq.1, heq.2, hself] at hnone
      cases hnone
    exact ⟨hne, (hother hne).symm.trans hnone⟩
  obtain ⟨kc, hkc, hcalled⟩ := hrec.called p j c n o ha
  refine ⟨hrec.fits.concat ⟨hrec.clocks, hstamp.clock, ⟨kc, hkc.trans hstamp.born, hcalled⟩,
      hrec.running p j c n o ha hstamp.unset, fun k o' t' he => ?_⟩, fun e he => ?_, fun e he => ?_,
    fun q l d n' o' hb => ?_, hrec.one, fun q l d n' o' t' hb ht => ?_, fun k d n' o' t' he => ?_,
    fun q l d n' o' hb hnone k b he => ?_, fun q l d n' o' hb hnone k d' n₂ o₂ t' he hkey => ?_, fun k d n' r he => ?_,
    fun ls hls => ?_⟩
  · obtain ⟨q, l, hb, ht⟩ := hrec.real k c n o' t' he
    obtain ⟨rfl, rfl⟩ := hrec.one p j q l c n o o' ha hb
    rw [hstamp.unset] at ht
    cases ht
  · obtain he | he := List.mem_append.mp he
    · exact hrec.clocks e he
    · rw [List.mem_singleton.mp he]
      exact le_rfl
  · obtain he | he := List.mem_append.mp he
    · exact hrec.numbers e he
    · rw [List.mem_singleton.mp he]
      exact hrec.numbers ⟨kc, .call c n o⟩ hcalled
  · obtain ⟨k, hk, he⟩ := hrec.called q l d n' o' hb
    exact ⟨k, hk, hold he⟩
  · by_cases heq : q = p ∧ l = j
    · obtain ⟨rfl, rfl⟩ := heq
      rw [hself] at ht
      cases ht
      have hb : (m.versions.value q (l + 1)).call = some (d, n', o') := hb.2
      rw [hcall] at hb
      cases hb
      exact ⟨m.versions.clock, List.mem_append_right _ List.mem_cons_self⟩
    · rw [hother heq] at ht
      obtain ⟨k, he⟩ := hrec.noted q l d n' o' t' hb ht
      exact ⟨k, hold he⟩
  · obtain he | heq := hcases he
    · obtain ⟨q, l, hb, ht⟩ := hrec.real k d n' o' t' he
      refine ⟨q, l, hb, (hother fun heq => ?_).trans ht⟩
      rw [heq.1, heq.2, hstamp.unset] at ht
      cases ht
    · cases heq
      exact ⟨p, j, ha, hself⟩
  · obtain he | heq := hcases he
    · exact hrec.running q l d n' o' hb (hunset hnone).2 k b he
    · cases heq
  · obtain ⟨hne, hnone⟩ := hunset hnone
    obtain he | heq := hcases he
    · exact hrec.keys q l d n' o' hb hnone k d' n₂ o₂ t' he hkey
    · cases heq
      have hpend' : Pending m q l o' := Memory.Author.pending hb hinv hnone
      obtain rfl := hpend.unique hpend' hinv hstamp.unset hnone hkey
      have hlast := hpend.last
      rw [hpend'.last] at hlast
      exact absurd ⟨rfl, Nat.succ.inj hlast⟩ hne
  · obtain he | heq := hcases he
    · obtain ⟨f, ls, ⟨k, hf⟩, ⟨k', hls⟩, hbegun, hfollows⟩ := hrec.answers k d n' r he
      have hext := (hstamp.safe hinv).toExt
      exact ⟨f, ls, ⟨k, hold hf⟩, ⟨k', hold hls⟩, hbegun.stable hext,
        hfollows.stable hinv (hstamp.inv hinv) hext hbegun⟩
    · cases heq
  · have hstamps : stamps (h ++ [⟨m.versions.clock, .stamp c n o t⟩]) = stamps h ++ [((c, n, o), t)] :=
      List.filterMap_append ..
    rw [hstamps, timeline_concat]
    exact hrec.replay_stamped hinv hstamp ha hls

/-! ## What the threads know of the history -/

/-- The call has been shown, and has not returned. -/
def Calling (h : List (Event K V R ι)) (c : ι) (n : Nat) (o : Op K V) : Prop :=
  (∃ k, ⟨k, .call c n o⟩ ∈ h) ∧ ∀ k b, ⟨k, .ret c n b⟩ ∉ h

/-- The call has stored a version, which has its stamp; or it has stored nothing. -/
def Written (m : Memory K V ι) (c : ι) (n : Nat) (o : Op K V) : Bool → Prop
  | true => ∃ p i, m.Author p i c n o ∧ m.versions.stamp p (i + 1) ≠ none
  | false => ∀ p i o', ¬ m.Author p i c n o'

/-- The call has stored version `i` of `p`, or nothing. -/
def Writing (m : Memory K V ι) (c : ι) (n : Nat) (o : Op K V) (p i : Nat) : Bool → Prop
  | true => ∃ j, i = j + 1 ∧ m.Author p j c n o
  | false => ∀ p i o', ¬ m.Author p i c n o'

/-- The snapshot with the body `f₀` has the stamp `ls`, and `f` is left of it. -/
def Serving (h : List (Event K V R ι)) (m : Memory K V ι) (c : ι) (n ls : Nat) (f : Body K V R) : Prop :=
  ∃ f₀, (∃ k, ⟨k, .withSnapshot c n f₀⟩ ∈ h) ∧ (∃ k, ⟨k, .began c n ls⟩ ∈ h) ∧ Follows m ls f₀ f

/-- What a thread knows of the history at its position. -/
def Pc.Told (c : ι) (h : List (Event K V R ι)) (m : Memory K V ι) : Pc K V R → Prop
  | .idle => True
  | .update n o l => Calling h c n o ∧ Written m c n o l.stored
  | .stamping n o l p i _ => Calling h c n o ∧ Writing m c n o p i l.stored
  | .starting n f .load => (∃ k, ⟨k, .withSnapshot c n f⟩ ∈ h) ∧ ∀ k ls, ⟨k, .began c n ls⟩ ∉ h
  | .starting n f (.test ts) | .starting n f (.add ts) =>
      (∃ k ≤ ts, ⟨k, .withSnapshot c n f⟩ ∈ h) ∧ ∀ k ls, ⟨k, .began c n ls⟩ ∉ h
  | .body n ls f => Serving h m c n ls f
  | .reading n ls f p _ _ | .walking n ls f p _ => Serving h m c n ls (.load p f)

/-- Events of other threads. -/
def Others (c : ι) (es : List (Event K V R ι)) : Prop := ∀ e ∈ es, e.what.thread ≠ some c

variable {es : List (Event K V R ι)} {ls : Nat} {f : Body K V R} {done : Bool}

omit [LinearOrder K] in
theorem Others.mem_iff (hes : Others c es) {k : Nat} (hw : w.thread = some c) : ⟨k, w⟩ ∈ h ++ es ↔ ⟨k, w⟩ ∈ h := by
  rw [List.mem_append]
  exact or_iff_left fun he => hes _ he hw

omit [LinearOrder K] in
theorem Calling.stable (hc : Calling h c n o) (hes : Others c es) : Calling (h ++ es) c n o := by
  obtain ⟨⟨k, he⟩, hret⟩ := hc
  exact ⟨⟨k, List.mem_append_left _ he⟩, fun k b hmem => hret k b ((hes.mem_iff rfl).mp hmem)⟩

theorem Written.stable (hw : Written m c n o done) (hrely : Rely c m m') : Written m' c n o done := by
  cases done with
  | true =>
      obtain ⟨p, i, ha, hs⟩ := hw
      exact ⟨p, i, (hrely.authors ..).mpr ha, hrely.grows.ne_none ha.1 hs⟩
  | false => exact fun p i o' ha => hw p i o' ((hrely.authors ..).mp ha)

theorem Writing.stable (hw : Writing m c n o p i done) (hrely : Rely c m m') : Writing m' c n o p i done := by
  cases done with
  | true =>
      obtain ⟨j, hj, ha⟩ := hw
      exact ⟨j, hj, (hrely.authors ..).mpr ha⟩
  | false => exact fun p i o' ha => hw p i o' ((hrely.authors ..).mp ha)

theorem Serving.stable (hs : Serving h m c n ls f) (hinv : Inv m) (hinv' : Inv m') (hext : Ext m m') (hls : Begun m ls) :
    Serving (h ++ es) m' c n ls f := by
  obtain ⟨f₀, ⟨k, hf⟩, ⟨k', hb⟩, hfollows⟩ := hs
  exact ⟨f₀, ⟨k, List.mem_append_left _ hf⟩, ⟨k', List.mem_append_left _ hb⟩, hfollows.stable hinv hinv' hext hls⟩

/-- What the others do does not change it. -/
theorem Pc.Told.stable {pc : Pc K V R} (ht : pc.Told c h m) (hknown : pc.Known c m) (hinv : Inv m) (hinv' : Inv m')
    (hrely : Rely c m m') (hes : Others c es) : pc.Told c (h ++ es) m' := by
  have hstart : ∀ {n f}, ((∃ k, ⟨k, .withSnapshot c n f⟩ ∈ h) ∧ ∀ k ls, ⟨k, .began c n ls⟩ ∉ h) →
      (∃ k, ⟨k, .withSnapshot c n f⟩ ∈ h ++ es) ∧ ∀ k ls, ⟨k, .began c n ls⟩ ∉ h ++ es := by
    intro n f hs
    obtain ⟨⟨k, he⟩, hb⟩ := hs
    exact ⟨⟨k, List.mem_append_left _ he⟩, fun k ls hmem => hb k ls ((hes.mem_iff rfl).mp hmem)⟩
  have hstart' : ∀ {n ts f}, ((∃ k ≤ ts, ⟨k, .withSnapshot c n f⟩ ∈ h) ∧ ∀ k ls, ⟨k, .began c n ls⟩ ∉ h) →
      (∃ k ≤ ts, ⟨k, .withSnapshot c n f⟩ ∈ h ++ es) ∧ ∀ k ls, ⟨k, .began c n ls⟩ ∉ h ++ es := by
    intro n ts f hs
    obtain ⟨⟨k, hk, he⟩, hb⟩ := hs
    exact ⟨⟨k, hk, List.mem_append_left _ he⟩, fun k ls hmem => hb k ls ((hes.mem_iff rfl).mp hmem)⟩
  cases pc with
  | idle => trivial
  | update n o l => exact ⟨ht.1.stable hes, ht.2.stable hrely⟩
  | stamping n o l p i s => exact ⟨ht.1.stable hes, ht.2.stable hrely⟩
  | starting n f s =>
      cases s with
      | load => exact hstart ht
      | test ts => exact hstart' ht
      | add ts => exact hstart' ht
  | body n ls f => exact Serving.stable ht hinv hinv' hrely.toExt hknown
  | reading n ls f p i s => exact Serving.stable ht hinv hinv' hrely.toExt hknown.1
  | walking n ls f p i => exact Serving.stable ht hinv hinv' hrely.toExt hknown.1

end

end Verlib.SnapshotList
