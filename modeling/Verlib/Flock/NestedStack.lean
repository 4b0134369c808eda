import Verlib.Flock.NestedLog

/-!
# The call stacks of nested try-locks

A context keeps a stack of calls. Each call but the innermost one runs its thunk and stands at the call
of the next inner one, so it knows a point of the path of its descriptor. `StackOk.step` says what a
step of a context does: it keeps what the stack knows, and it is one of a few moves, such as a `retire`
by the innermost call or the return of a nested call to the thunk around it.
-/

namespace Verlib.Flock.Nested

open Interleaving
open LockWord (Entry firstCounter)

variable {Λ κ : Type} {h h' : List Event} {sh sh' : Shared Λ}

/-! ## What a call knows -/

/-- The call has got its descriptor. -/
def Phase.hasDesc : Phase → Bool
  | .load | .commit _ | .alloc _ | .reload _ => false
  | _ => true

/-- The call has not run anything yet. -/
def Frame.Unstarted (f : Frame Λ) : Prop :=
  f.rest = f.body ∧ f.pos = 0

/-- The call has its descriptor and has not run anything yet. -/
def Frame.Ready (sh : Shared Λ) (f : Frame Λ) : Prop :=
  (sh.descs f.desc).lock = f.lock ∧ (sh.descs f.desc).thunk = f.rest ∧ f.pos = 0

/-- The call runs its descriptor and has come to the rest `t`. -/
def Frame.Runs (h : List Event) (sh : Shared Λ) (f : Frame Λ) (t : Thunk Λ) : Prop :=
  (sh.descs f.desc).lock = f.lock ∧ Stored h f.desc ∧ At h sh f.desc f.pos t

/-- What a call that has its descriptor knows at each phase. -/
def PhaseOk (h : List Event) (sh : Shared Λ) (f : Frame Λ) : Phase → Prop
  | .casRead x | .cas x => f.Ready sh ∧ (sh.descs f.desc).counter = .unlocked x
  | .after => f.Ready sh ∧ sh.Missed f.desc
  | .test seen => f.Ready sh ∧ sh.Missed f.desc ∧
      (seen = .locked f.desc → Stored h f.desc) ∧
      (Stored h f.desc → seen = .locked f.desc ∨ (sh.descs f.desc).done)
  | .look | .check => (sh.descs f.desc).thunk = f.rest ∧ f.pos = 0
  | .run => f.Runs h sh f.rest
  | .finish r => f.Runs h sh (.ret r)
  | .clear r | .clearCount r => f.Runs h sh (.ret r) ∧ (sh.descs f.desc).done
  | .clearSwap r n => f.Runs h sh (.ret r) ∧ (sh.descs f.desc).done ∧
      n = (sh.descs f.desc).counter.succ
  | .retire (some r) => f.Runs h sh (.ret r)
  | .retire none => Lost h sh f.desc
  | _ => False

/-- How a call got its descriptor: from the log of the thunk around it, or, in an outermost call, by
making it. -/
def Frame.Linked (sh : Shared Λ) (helping : Bool) (f : Frame Λ) : Option (Frame Λ) → Prop
  | some g => (sh.slots g.desc g.pos).desc = some f.desc
  | none => helping = true ∨ (sh.descs f.desc).root = f.desc

/-- The word that a call has loaded is the one committed to the log around it. -/
def Loaded (sh : Shared Λ) (w : Entry) : Option (Frame Λ) → Prop
  | some g => (sh.slots g.desc g.pos).current = some w
  | none => True

/-- What a call that has its descriptor knows. -/
structure DescOk (h : List Event) (sh : Shared Λ) (threadId : Nat) (helping : Bool)
    (parent : Option (Frame Λ)) (f : Frame Λ) : Prop where
  lt : f.desc < sh.fresh
  threadId : (sh.descs f.desc).threadId = threadId
  linked : f.Linked sh helping parent
  help : f.phase = .look ∨ f.phase = .check → helping = true
  phase : PhaseOk h sh f f.phase

/-- What a call knows. -/
def FrameOk (h : List Event) (sh : Shared Λ) (threadId : Nat) (helping : Bool)
    (parent : Option (Frame Λ)) (f : Frame Λ) : Prop :=
  match f.phase with
  | .load => f.Unstarted
  | .commit w => f.Unstarted ∧ Seen sh f.lock w
  | .alloc w => f.Unstarted ∧ Seen sh f.lock w ∧ Loaded sh w parent
  | .reload w => f.Unstarted ∧ Seen sh f.lock w ∧ Loaded sh w parent
  | _ => DescOk h sh threadId helping parent f

/-- What a stack of calls knows: each but the innermost runs its thunk and is at the call of the next
inner one. -/
def StackOk (h : List Event) (sh : Shared Λ) (threadId : Nat) (helping : Bool) :
    List (Frame Λ) → Prop
  | [] => True
  | [f] => FrameOk h sh threadId helping none f
  | f :: g :: gs => FrameOk h sh threadId helping (some g) f ∧
      (g.phase = .run ∧ ∃ k, g.rest = .tryLock f.lock f.body k) ∧
      StackOk h sh threadId helping (g :: gs)

/-- A call in a phase with a descriptor. -/
theorem FrameOk.desc {threadId : Nat} {helping : Bool} {parent : Option (Frame Λ)} {f : Frame Λ}
    (hf : FrameOk h sh threadId helping parent f) (hd : f.phase.hasDesc = true) :
    DescOk h sh threadId helping parent f := by
  unfold FrameOk at hf
  split at hf <;> simp_all [Phase.hasDesc]

/-- A call with a descriptor satisfies what its phase asks for. -/
theorem DescOk.frameOk {threadId : Nat} {helping : Bool} {parent : Option (Frame Λ)} {f : Frame Λ}
    (hf : DescOk h sh threadId helping parent f) : FrameOk h sh threadId helping parent f := by
  have hphase := hf.phase
  unfold FrameOk
  split <;> simp_all [PhaseOk]

section Transport

variable (hext : Ext h sh h' sh') (hinv : SharedInv h sh)
include hext hinv

/-- What a call with a descriptor knows stays known. -/
theorem Ext.phaseOk {f : Frame Λ} {x : Phase} (hd : f.desc < sh.fresh)
    (hx : PhaseOk h sh f x) : PhaseOk h' sh' f x := by
  obtain ⟨hlock, _, hthunk, hcounter, _, hdone⟩ := hext.desc_eq hd
  have hready : f.Ready sh → f.Ready sh' := fun hr =>
    ⟨hlock.trans hr.1, hthunk.trans hr.2.1, hr.2.2⟩
  have hruns : ∀ {t}, f.Runs h sh t → f.Runs h' sh' t := fun hr =>
    ⟨hlock.trans hr.1, hext.stored hr.2.1, hext.at hinv.toLogInv hr.2.2⟩
  match x, hx with
  | .casRead x, hx | .cas x, hx => exact ⟨hready hx.1, hcounter.trans hx.2⟩
  | .after, hx => exact ⟨hready hx.1, hext.missed hd hx.2⟩
  | .test seen, hx =>
      obtain ⟨hr, hm, hseen, hst⟩ := hx
      refine ⟨hready hr, hext.missed hd hm, fun hs => hext.stored (hseen hs), ?_⟩
      intro hs
      exact (hst (hext.stored_of_missed hm hs)).imp_right hdone
  | .look, hx | .check, hx => exact ⟨hthunk.trans hx.1, hx.2⟩
  | .run, hx => exact hruns hx
  | .finish r, hx => exact hruns hx
  | .clear r, hx | .clearCount r, hx => exact ⟨hruns hx.1, hdone hx.2⟩
  | .clearSwap r n, hx => exact ⟨hruns hx.1, hdone hx.2.1, by rw [hcounter, hx.2.2]⟩
  | .retire (some r), hx => exact hruns hx
  | .retire none, hx => exact hext.lost hd hx

/-- What a call knows stays known. -/
theorem Ext.frameOk {threadId : Nat} {helping : Bool} {parent : Option (Frame Λ)} {f : Frame Λ}
    (hf : FrameOk h sh threadId helping parent f) : FrameOk h' sh' threadId helping parent f := by
  have hloaded : ∀ {w}, Loaded sh w parent → Loaded sh' w parent := by
    intro w hw
    cases parent with
    | none => trivial
    | some g => exact hext.current _ _ _ hw
  have hdesc : DescOk h sh threadId helping parent f → DescOk h' sh' threadId helping parent f := by
    intro hd
    obtain ⟨_, hroot, _, _, htid, _⟩ := hext.desc_eq hd.lt
    refine ⟨hd.lt.trans_le hext.fresh, htid.trans hd.threadId, ?_, hd.help,
      hext.phaseOk hinv hd.lt hd.phase⟩
    cases parent with
    | none => exact hd.linked.imp_right hroot.trans
    | some g => exact hext.desc _ _ _ hd.linked
  unfold FrameOk at hf ⊢
  split at hf
  · exact hf
  · exact ⟨hf.1, hext.seen hf.2⟩
  · exact ⟨hf.1, hext.seen hf.2.1, hloaded hf.2.2⟩
  · exact ⟨hf.1, hext.seen hf.2.1, hloaded hf.2.2⟩
  · exact hdesc hf

/-- What a stack of calls knows stays known. -/
theorem Ext.stackOk {threadId : Nat} {helping : Bool} {frames : List (Frame Λ)}
    (hframes : StackOk h sh threadId helping frames) : StackOk h' sh' threadId helping frames := by
  induction frames with
  | nil => trivial
  | cons f outer ih =>
      cases outer with
      | nil => exact hext.frameOk hinv hframes
      | cons g gs => exact ⟨hext.frameOk hinv hframes.1, hframes.2.1, ih hframes.2.2⟩

end Transport

/-- The innermost call changes; the calls around it know what they knew. -/
theorem StackOk.replace {threadId : Nat} {helping : Bool} {f f' : Frame Λ}
    {outer : List (Frame Λ)} (hframes : StackOk h sh threadId helping (f :: outer))
    (hlock : f'.lock = f.lock) (hbody : f'.body = f.body)
    (hf' : FrameOk h sh threadId helping outer.head? f') :
    StackOk h sh threadId helping (f' :: outer) := by
  cases outer with
  | nil => exact hf'
  | cons g gs =>
      refine ⟨hf', ?_, hframes.2.2⟩
      rw [hlock, hbody]
      exact hframes.2.1

/-- What the innermost call knows. -/
theorem StackOk.head {threadId : Nat} {helping : Bool} {f : Frame Λ} {outer : List (Frame Λ)}
    (hframes : StackOk h sh threadId helping (f :: outer)) :
    FrameOk h sh threadId helping outer.head? f := by
  cases outer with
  | nil => exact hframes
  | cons g gs => exact hframes.1

/-- The thunk around a nested call has a descriptor and is at the call. -/
theorem StackOk.parent {threadId : Nat} {helping : Bool} {f g : Frame Λ} {gs : List (Frame Λ)}
    (hframes : StackOk h sh threadId helping (f :: g :: gs)) :
    DescOk h sh threadId helping gs.head? g ∧
      ∃ k, g.rest = .tryLock f.lock f.body k ∧ g.Runs h sh (.tryLock f.lock f.body k) := by
  obtain ⟨_, ⟨hrun, k, hk⟩, hg⟩ := hframes
  have hdesc := hg.head.desc (by rw [hrun]; rfl)
  have hphase := hdesc.phase
  rw [hrun] at hphase
  refine ⟨hdesc, k, hk, ?_⟩
  rw [← hk]
  exact hphase

/-! ## What a step of a context does -/

/-- The effect of a step on the stack of a context: the innermost call stays at its operation, gets its
descriptor, does an operation of its thunk, makes a nested call, or returns to the thunk around it; or
the context ends. -/
inductive Move (h : List Event) (sh : Shared Λ) (helping : Bool) (f : Frame Λ) :
    List (Frame Λ) → List Event → Shared Λ → List (Frame Λ) → Prop where
  | stay {outer es sh'} (f' : Frame Λ) : (f.phase.hasDesc = true → f'.desc = f.desc) →
      f'.pos = f.pos → f'.phase.hasDesc = f.phase.hasDesc → (∀ e ∈ es, ∃ d, e = Event.stored d) →
      Move h sh helping f outer es sh' (f' :: outer)
  | acquire {outer sh'} (f' : Frame Λ) : f.phase.hasDesc = false → f'.phase.hasDesc = true →
      f'.pos = 0 → (outer = [] → f'.desc = sh.fresh) →
      (∀ g gs, outer = g :: gs → (sh'.slots g.desc g.pos).desc = some f'.desc) →
      Move h sh helping f outer [] sh' (f' :: outer)
  | retire {outer p k} : f.phase = .run → f.rest = .retire p k →
      Move h sh helping f outer
        (if helping then [.reach f.desc f.pos p]
          else [.reach f.desc f.pos p, .hand f.desc f.pos p]) sh
        ({ f with rest := k, pos := f.pos + 1 } :: outer)
  | commit {outer sh' k v} : f.phase = .run → f.rest = .commit k →
      (sh'.slots f.desc f.pos).value = some v →
      Move h sh helping f outer [] sh' ({ f with rest := k v, pos := f.pos + 1 } :: outer)
  | push {outer l body k} : f.phase = .run → f.rest = .tryLock l body k →
      Move h sh helping f outer [] sh (.call l body :: f :: outer)
  | pop {g gs sh'} (g' : Frame Λ) : g'.desc = g.desc → g'.pos = g.pos + 1 →
      (helping = true ∨ ∀ e, (sh.slots g.desc g.pos).desc = some e → Stored h e →
        f.phase.hasDesc = true ∧ f.desc = e ∧ ∃ r, At h sh e f.pos (.ret r)) →
      g'.phase = .run → Move h sh helping f (g :: gs) [] sh' (g' :: gs)
  | leave : helping = true ∨ f.phase.hasDesc = false → Move h sh helping f [] [] sh []
  | returns {res} : helping = false → f.phase = .retire res →
      Move h sh helping f [] [.returned f.desc res] sh []

/-- What a step establishes: the shared memory evolves, the stack knows what it needs, and the step is
one of the moves. -/
structure StepOk (h : List Event) (sh : Shared Λ) (threadId : Nat) (helping : Bool) (f : Frame Λ)
    (outer : List (Frame Λ)) (es : List Event) (sh' : Shared Λ) (frames : List (Frame Λ)) :
    Prop where
  evolves : Evolves h sh es sh'
  stack : StackOk (h ++ es) sh' threadId helping frames
  move : Move h sh helping f outer es sh' frames

section Steps

variable {threadId : Nat} {helping : Bool} {f : Frame Λ} {outer : List (Frame Λ)}

/-- A step after which the innermost call is in another phase without a descriptor. -/
theorem StackOk.step_plain {es : List Event} {x : Phase}
    (hframes : StackOk h sh threadId helping (f :: outer)) (hinv : SharedInv h sh)
    (hevol : Evolves h sh es sh') (hes : ∀ e ∈ es, ∃ d, e = Event.stored d)
    (hf : f.phase.hasDesc = x.hasDesc)
    (hx : FrameOk (h ++ es) sh' threadId helping outer.head? { f with phase := x }) :
    StepOk h sh threadId helping f outer es sh' ({ f with phase := x } :: outer) :=
  ⟨hevol, (hevol.1.stackOk hinv hframes).replace rfl rfl hx, .stay _ (fun _ => rfl) rfl hf.symm hes⟩

/-- A step after which the innermost call is in another phase with its descriptor. -/
theorem StackOk.step_desc {es : List Event} {x : Phase}
    (hframes : StackOk h sh threadId helping (f :: outer)) (hinv : SharedInv h sh)
    (hevol : Evolves h sh es sh') (hes : ∀ e ∈ es, ∃ d, e = Event.stored d)
    (hf : f.phase.hasDesc = true) (hhelp : x = .look ∨ x = .check → helping = true)
    (hx : PhaseOk (h ++ es) sh' { f with phase := x } x) :
    StepOk h sh threadId helping f outer es sh' ({ f with phase := x } :: outer) := by
  have hd := (hevol.1.frameOk hinv hframes.head).desc hf
  have hdesc : DescOk (h ++ es) sh' threadId helping outer.head? { f with phase := x } :=
    ⟨hd.lt, hd.threadId, hd.linked, hhelp, hx⟩
  refine hframes.step_plain hinv hevol hes ?_ hdesc.frameOk
  rw [hf]
  cases x <;> first | rfl | exact absurd hx id

/-- A silent step after which the innermost call is in another phase with its descriptor. -/
theorem StackOk.step_silent {x : Phase} (hframes : StackOk h sh threadId helping (f :: outer))
    (hinv : SharedInv h sh) (hf : f.phase.hasDesc = true)
    (hhelp : x = .look ∨ x = .check → helping = true)
    (hx : PhaseOk h sh { f with phase := x } x) :
    StepOk h sh threadId helping f outer [] sh ({ f with phase := x } :: outer) := by
  refine hframes.step_desc hinv (hinv.events (by simp)) (by simp) hf hhelp ?_
  rwa [List.append_nil]

variable [DecidableEq Λ] {es : List Event} {frames : List (Frame Λ)} {v : Nat}

/-- `lock::load`, and the commit of the load. -/
theorem StackOk.step_load (hframes : StackOk h sh threadId helping (f :: outer))
    (hinv : SharedInv h sh) (hphase : f.phase = .load ∨ ∃ w, f.phase = .commit w)
    (hstep : stepFrame sh threadId helping v f outer = some (es, sh', frames)) :
    StepOk h sh threadId helping f outer es sh' frames := by
  have hseen : Seen sh f.lock (sh.lck f.lock) := by
    refine ⟨fun x hx => by simp [Shared.clock, hx], fun e he => ?_⟩
    exact (hinv.stored e (hinv.installed _ e he).1).1
  have hf := hframes.head
  have hevol : Evolves h sh [] sh := hinv.events (by simp)
  rcases hphase with hp | ⟨w, hp⟩
  · simp only [FrameOk, hp] at hf
    cases outer with
    | nil =>
        simp only [stepFrame, hp] at hstep
        cases hstep
        exact hframes.step_plain hinv hevol (by simp) (by rw [hp]; rfl) ⟨hf, hseen, trivial⟩
    | cons g gs =>
        simp only [stepFrame, hp] at hstep
        cases hstep
        exact hframes.step_plain hinv hevol (by simp) (by rw [hp]; rfl) ⟨hf, hseen⟩
  · simp only [FrameOk, hp] at hf
    cases outer with
    | nil =>
        simp only [stepFrame, hp] at hstep
        cases hstep
    | cons g gs =>
        obtain ⟨_, k, hk, hruns⟩ := hframes.parent
        simp only [stepFrame, hp] at hstep
        split at hstep
        · rename_i w' hcur
          cases hstep
          obtain ⟨l, body, k', hk', hs⟩ := hinv.load _ _ _ hcur
          cases hruns.2.2.unique hk'
          exact hframes.step_plain hinv hevol (by simp) (by rw [hp]; rfl) ⟨hf.1, hs, hcur⟩
        · rename_i hcur
          cases hstep
          have hnew := hinv.setSlot (d := g.desc) (i := g.pos)
            (s := { sh.slots g.desc g.pos with current := some w }) (fun _ hv => hv)
            (by simp [hcur]) rfl
            (by rintro _ ⟨⟩; exact .inr ⟨_, _, _, hruns.2.2, hf.2⟩) (fun _ hr => .inl hr)
          refine hframes.step_plain hinv hnew (by simp) (by rw [hp]; rfl) ⟨hf.1, hnew.1.seen hf.2, ?_⟩
          show ((sh.setSlot g.desc g.pos _).slots g.desc g.pos).current = some w
          simp [setSlot_slots]

/-- `lock::cas`, and the test whether the descriptor is or was installed. -/
theorem StackOk.step_cas (hframes : StackOk h sh threadId helping (f :: outer))
    (hinv : SharedInv h sh)
    (hphase : (∃ x, f.phase = .casRead x ∨ f.phase = .cas x) ∨ f.phase = .after ∨
      ∃ seen, f.phase = .test seen)
    (hstep : stepFrame sh threadId helping v f outer = some (es, sh', frames)) :
    StepOk h sh threadId helping f outer es sh' frames := by
  have hf := hframes.head
  have hd : f.phase.hasDesc = true := by
    rcases hphase with ⟨x, hp | hp⟩ | hp | ⟨seen, hp⟩ <;> rw [hp] <;> rfl
  have hdesc := hf.desc hd
  have hok := hdesc.phase
  rcases hphase with ⟨x, hp | hp⟩ | hp | ⟨seen, hp⟩
  · simp only [stepFrame, hp] at hstep
    cases hstep
    rw [hp] at hok
    refine hframes.step_silent hinv hd (by split <;> simp) ?_
    split
    · exact hok
    · rename_i hne
      refine ⟨hok.1, fun y hy => ?_⟩
      rw [hok.2] at hy
      cases hy
      refine .of_ne (hinv.aim _ _ hdesc.lt hok.2) ?_
      rwa [hok.1.1]
  · rw [hp] at hok
    simp only [stepFrame, hp] at hstep
    split at hstep
    · rename_i hl
      cases hstep
      have hevol := hinv.store hdesc.lt (by rw [hok.1.1]; exact hl) hok.2
      rw [hok.1.1] at hevol
      refine hframes.step_desc hinv hevol (by simp) hd (by simp) ⟨hok.1, ?_⟩
      exact (hevol.2.stored f.desc (List.mem_append_right _ (List.mem_singleton.mpr rfl))).2.2.2
    · rename_i hne
      cases hstep
      refine hframes.step_silent hinv hd (by simp) ⟨hok.1, fun y hy => ?_⟩
      rw [hok.2] at hy
      cases hy
      refine .of_ne (hinv.aim _ _ hdesc.lt hok.2) ?_
      rwa [hok.1.1]
  · rw [hp] at hok
    simp only [stepFrame, hp] at hstep
    cases hstep
    refine hframes.step_silent hinv hd (by simp) ⟨hok.1, hok.2, ?_, ?_⟩
    · exact fun hl => (hinv.installed _ _ hl).1
    · intro hs
      have hor := (hinv.stored _ hs).2.1
      rw [hok.1.1] at hor
      exact hor
  · rw [hp] at hok
    obtain ⟨hready, hm, hseen, hst⟩ := hok
    simp only [stepFrame, hp] at hstep
    cases hstep
    refine hframes.step_silent hinv hd (by split <;> simp) ?_
    split
    · rename_i hor
      simp only [Bool.or_eq_true, decide_eq_true_eq] at hor
      have hs : Stored h f.desc := by
        rcases hor with hdone | heq
        · exact hinv.done _ hdesc.lt hdone
        · exact hseen heq
      refine ⟨hready.1, hs, ?_⟩
      show At h sh f.desc f.pos f.rest
      rw [hready.2.2, ← hready.2.1]
      exact .start hdesc.lt
    · rename_i hor
      simp only [Bool.or_eq_true, decide_eq_true_eq, not_or] at hor
      refine ⟨fun hs => ?_, hm⟩
      rcases hst hs with heq | hdone
      · exact hor.2 heq
      · exact hor.1 hdone

/-- `help_descriptor` up to the run of the thunk. -/
theorem StackOk.step_help (hframes : StackOk h sh threadId helping (f :: outer))
    (hinv : SharedInv h sh) (hphase : f.phase = .look ∨ f.phase = .check)
    (hstep : stepFrame sh threadId helping v f outer = some (es, sh', frames)) :
    StepOk h sh threadId helping f outer es sh' frames := by
  have hd : f.phase.hasDesc = true := by rcases hphase with hp | hp <;> rw [hp] <;> rfl
  have hdesc := hframes.head.desc hd
  have hhelp := hdesc.help hphase
  have hok := hdesc.phase
  have hend : StepOk h sh threadId helping f [] [] sh [] :=
    ⟨hinv.events (by simp), trivial, .leave (.inl hhelp)⟩
  cases outer with
  | cons g gs => rcases hphase with hp | hp <;> simp [stepFrame, hp] at hstep
  | nil =>
      rcases hphase with hp | hp
      · rw [hp] at hok
        simp only [stepFrame, hp, Option.some.injEq, Prod.mk.injEq] at hstep
        obtain ⟨rfl, rfl, rfl⟩ := hstep
        split
        · exact hframes.step_silent hinv hd (fun _ => hhelp) hok
        · exact hend
      · rw [hp] at hok
        simp only [stepFrame, hp, Option.some.injEq, Prod.mk.injEq] at hstep
        obtain ⟨rfl, rfl, rfl⟩ := hstep
        split
        · rename_i hl
          obtain ⟨hs, hlock, _⟩ := hinv.installed _ _ hl
          refine hframes.step_silent hinv hd (fun _ => hhelp) ⟨hlock, hs, ?_⟩
          show At h sh f.desc f.pos f.rest
          rw [hok.2, ← hok.1]
          exact .start hdesc.lt
        · exact hend

/-- `done = true`, and `clear`. -/
theorem StackOk.step_clear (hframes : StackOk h sh threadId helping (f :: outer))
    (hinv : SharedInv h sh)
    (hphase : ∃ r, f.phase = .finish r ∨ f.phase = .clear r ∨ f.phase = .clearCount r ∨
      ∃ n, f.phase = .clearSwap r n)
    (hstep : stepFrame sh threadId helping v f outer = some (es, sh', frames)) :
    StepOk h sh threadId helping f outer es sh' frames := by
  have hd : f.phase.hasDesc = true := by
    obtain ⟨r, hp | hp | hp | ⟨n, hp⟩⟩ := hphase <;> rw [hp] <;> rfl
  have hdesc := hframes.head.desc hd
  have hok := hdesc.phase
  obtain ⟨r, hp | hp | hp | ⟨n, hp⟩⟩ := hphase
  · rw [hp] at hok
    rw [stepFrame_finish hp] at hstep
    cases hstep
    have hevol := hinv.setDone hok.2.1
    refine hframes.step_desc hinv hevol (by simp) hd (by simp) ⟨?_, ?_⟩
    · exact hevol.1.phaseOk (x := .finish r) hinv hdesc.lt hok
    · show ((sh.setDone f.desc).descs f.desc).done = true
      simp [Shared.setDone]
  · rw [hp] at hok
    simp only [stepFrame, hp] at hstep
    cases hstep
    refine hframes.step_silent hinv hd (by split <;> simp) ?_
    split
    · exact hok
    · exact hok.1
  · rw [hp] at hok
    simp only [stepFrame, hp] at hstep
    cases hstep
    exact hframes.step_silent hinv hd (by simp) ⟨hok.1, hok.2, rfl⟩
  · rw [hp] at hok
    obtain ⟨hruns, hdone, rfl⟩ := hok
    simp only [stepFrame, hp] at hstep
    split at hstep
    · rename_i hl
      cases hstep
      have hevol := hinv.unlock hl hdone
      refine hframes.step_desc hinv hevol (by simp) hd (by simp) ?_
      exact hevol.1.phaseOk (x := .retire (some r)) hinv hdesc.lt hruns
    · cases hstep
      exact hframes.step_silent hinv hd (by simp) hruns

/-- An operation of the thunk. -/
theorem StackOk.step_run (hframes : StackOk h sh threadId helping (f :: outer))
    (hinv : SharedInv h sh) (hp : f.phase = .run)
    (hstep : stepFrame sh threadId helping v f outer = some (es, sh', frames)) :
    StepOk h sh threadId helping f outer es sh' frames := by
  obtain ⟨lock, body, phase, desc, own, rest, pos⟩ := f
  obtain rfl : phase = .run := hp
  have hdesc := hframes.head.desc rfl
  have hok : At h sh desc pos rest := hdesc.phase.2.2
  have hadvance : ∀ {es sh' t}, Evolves h sh es sh' → At (h ++ es) sh' desc (pos + 1) t →
      StackOk (h ++ es) sh' threadId helping
        (⟨lock, body, .run, desc, own, t, pos + 1⟩ :: outer) := by
    intro es sh' t hevol ht
    have hframes' := hevol.1.stackOk hinv hframes
    have hdesc' := hframes'.head.desc rfl
    exact hframes'.replace rfl rfl (DescOk.frameOk ⟨hdesc'.lt, hdesc'.threadId, hdesc'.linked,
      hdesc'.help, hdesc'.phase.1, hdesc'.phase.2.1, ht⟩)
  have hevol : Evolves h sh [] sh := hinv.events (by simp)
  cases rest with
  | ret r =>
      cases hstep
      exact hframes.step_silent hinv rfl (by simp) hdesc.phase
  | retire p k =>
      cases hstep
      have hevol : Evolves h sh (if helping then [.reach desc pos p]
          else [.reach desc pos p, .hand desc pos p]) sh :=
        hinv.events (by cases helping <;> simp)
      exact ⟨hevol, hadvance hevol (.retire (hevol.1.at hinv.toLogInv hok)), .retire rfl rfl⟩
  | commit k =>
      simp only [stepFrame] at hstep
      split at hstep
      · rename_i u hu
        cases hstep
        exact ⟨hevol, hadvance hevol (.commit (hevol.1.at hinv.toLogInv hok) hu),
          .commit rfl rfl hu⟩
      · rename_i hnone
        cases hstep
        have hevol := hinv.setSlot (d := desc) (i := pos)
          (s := { sh.slots desc pos with value := some v }) (by simp [hnone])
          (fun _ hw => hw) rfl (fun _ hw => .inl hw) (fun _ hr => .inl hr)
        have hu : ((sh.setSlot desc pos { sh.slots desc pos with
            value := some v }).slots desc pos).value = some v := by
          simp [setSlot_slots]
        exact ⟨hevol, hadvance hevol (.commit (hevol.1.at hinv.toLogInv hok) hu),
          .commit rfl rfl hu⟩
  | tryLock l inner k =>
      cases hstep
      refine ⟨hevol, ⟨⟨rfl, rfl⟩, ⟨rfl, k, rfl⟩, ?_⟩, .push rfl rfl⟩
      exact hevol.1.stackOk hinv hframes

omit [DecidableEq Λ] in
/-- The thunk around a nested call goes on. -/
theorem StackOk.resume {g : Frame Λ} {gs : List (Frame Λ)} {t : Thunk Λ}
    (hframes : StackOk h sh threadId helping (g :: gs))
    (hphase : g.phase = .run) (ht : At h sh g.desc (g.pos + 1) t) :
    StackOk h sh threadId helping ({ g with rest := t, pos := g.pos + 1 } :: gs) := by
  obtain ⟨lock, body, phase, desc, own, rest, pos⟩ := g
  obtain rfl : phase = .run := hphase
  have hdesc := hframes.head.desc rfl
  exact hframes.replace rfl rfl (DescOk.frameOk ⟨hdesc.lt, hdesc.threadId, hdesc.linked,
    hdesc.help, hdesc.phase.1, hdesc.phase.2.1, ht⟩)

omit [DecidableEq Λ] in
/-- A nested call returns an outcome of its descriptor to the thunk around it. -/
theorem StackOk.step_return {g : Frame Λ} {gs : List (Frame Λ)} {res : Option Nat} {e : Nat}
    (hframes : StackOk h sh threadId helping (f :: g :: gs)) (hinv : SharedInv h sh)
    (hevol : Evolves h sh [] sh') (he : (sh.slots g.desc g.pos).desc = some e)
    (hres : Outcome h sh e res)
    (hcover : helping = true ∨ ∀ r, res = some r →
      f.phase.hasDesc = true ∧ f.desc = e ∧ At h sh e f.pos (.ret r)) :
    StepOk h sh threadId helping f (g :: gs) [] sh' (g.resume res :: gs) := by
  obtain ⟨hdesc, k, hk, hruns⟩ := hframes.parent
  obtain ⟨w, hw, hself, _⟩ := (hinv.child _ _ _ he).aim
  have hpath : At h sh g.desc (g.pos + 1) (k res) := by
    cases res with
    | none => exact .lost hruns.2.2 hw hself he hres
    | some r =>
        obtain ⟨hs, n, hn⟩ := hres
        exact .won hruns.2.2 hw hself he hs hn
  have hresume : g.resume res = { g with rest := k res, pos := g.pos + 1 } := by
    simp [Frame.resume, hk]
  rw [hresume]
  have hphase := hframes.2.1.1
  refine ⟨hevol, ?_, .pop _ rfl rfl ?_ hphase⟩
  · have hat := hevol.1.at hinv.toLogInv hpath
    exact (hevol.1.stackOk hinv hframes.2.2).resume hphase hat
  · refine hcover.imp_right fun hc e' he' hs => ?_
    rw [he] at he'
    cases he'
    cases res with
    | none => exact absurd hs hres.1
    | some r =>
        obtain ⟨hd, hfe, hr⟩ := hc r rfl
        exact ⟨hd, hfe, r, hr⟩

omit [DecidableEq Λ] in
/-- The call gets its descriptor. -/
theorem StackOk.step_acquire {w : Entry} {e : Nat} {own : Bool}
    (hframes : StackOk h sh threadId helping (f :: outer)) (hinv : SharedInv h sh)
    (hevol : Evolves h sh [] sh') (hd : f.phase.hasDesc = false) (hun : f.Unstarted)
    (he : e < sh'.fresh) (htid : (sh'.descs e).threadId = threadId)
    (hlock : (sh'.descs e).lock = f.lock) (hthunk : (sh'.descs e).thunk = f.body)
    (hcount : (sh'.descs e).counter = firstCounter w)
    (hroot : outer = [] → e = sh.fresh ∧ (sh'.descs e).root = e)
    (hlink : ∀ g gs, outer = g :: gs → (sh'.slots g.desc g.pos).desc = some e) :
    StepOk h sh threadId helping f outer [] sh'
      ({ f with phase := .start w, desc := e, own := own } :: outer) := by
  have hstart : (Phase.start w).hasDesc = true ∧
      ∀ x, Phase.start w = x → x ≠ .look ∧ x ≠ .check := by
    cases w <;> simp [Phase.start, Phase.hasDesc]
  refine ⟨hevol, ?_, .acquire _ hd hstart.1 hun.2 (fun ho => (hroot ho).1) hlink⟩
  refine (hevol.1.stackOk hinv hframes).replace rfl rfl (DescOk.frameOk ⟨he, htid, ?_, ?_, ?_⟩)
  · cases outer with
    | nil => exact .inr (hroot rfl).2
    | cons g gs => exact hlink g gs rfl
  · rintro (hx | hx)
    · exact absurd rfl ((hstart.2 _ hx).1)
    · exact absurd rfl ((hstart.2 _ hx).2)
  · cases w with
    | unlocked x => exact ⟨⟨hlock, hthunk.trans hun.1.symm, hun.2⟩, hcount⟩
    | locked y =>
        -- A descriptor made after a load that showed the lock taken has no count to be stored at.
        have hnone : ∀ x, (sh'.descs e).counter ≠ .unlocked x := by
          intro x
          rw [hcount]
          simp [firstCounter]
        refine ⟨fun hs => ?_, fun x hx => absurd hx (hnone x)⟩
        obtain ⟨x, hx⟩ := (hevol.2.stored e hs).2.2.1
        exact hnone x hx

/-- `new_obj_acquired` of an outermost call. -/
theorem StackOk.step_alloc_root {w : Entry} (hframes : StackOk h sh threadId helping [f])
    (hinv : SharedInv h sh) (hp : f.phase = .alloc w)
    (hstep : stepFrame sh threadId helping v f [] = some (es, sh', frames)) :
    StepOk h sh threadId helping f [] es sh' frames := by
  have hf := hframes.head
  simp only [FrameOk, hp] at hf
  have hd : f.phase.hasDesc = false := by rw [hp]; rfl
  simp only [stepFrame, hp] at hstep
  split at hstep
  · cases hstep
    exact ⟨hinv.events (by simp), trivial, .leave (.inr hd)⟩
  · cases hstep
    have hevol := hinv.allocate_root (D := f.descriptor sh.fresh w threadId) hf.2.1 rfl rfl rfl
    have hself : (sh.allocate (f.descriptor sh.fresh w threadId)).descs sh.fresh =
        f.descriptor sh.fresh w threadId := Function.update_self ..
    refine hframes.step_acquire hinv hevol hd hf.1 (Nat.lt_succ_self _) ?_ ?_ ?_ ?_ ?_ ?_
    · rw [hself]; rfl
    · rw [hself]; rfl
    · rw [hself]; rfl
    · rw [hself]; rfl
    · rw [hself]
      exact fun _ => ⟨rfl, rfl⟩
    · rintro g gs ⟨⟩

/-- `new_obj_acquired` of a nested call. -/
theorem StackOk.step_alloc {g : Frame Λ} {gs : List (Frame Λ)}
    (hframes : StackOk h sh threadId helping (f :: g :: gs)) (hinv : SharedInv h sh)
    (hphase : ∃ w, f.phase = .alloc w ∨ f.phase = .reload w)
    (hfind : helping = true ∨ f.findsResult g sh threadId = false)
    (hstep : stepFrame sh threadId helping v f (g :: gs) = some (es, sh', frames)) :
    StepOk h sh threadId helping f (g :: gs) es sh' frames := by
  have hf := hframes.head
  obtain ⟨hdesc, k, hk, hruns⟩ := hframes.parent
  have hevol : Evolves h sh [] sh := hinv.events (by simp)
  -- A result found in the log is an outcome of the descriptor, and an owner finds only failures.
  have hresult : ∀ res, (sh.slots g.desc g.pos).result = some res →
      (∀ r, res = some r → f.findsResult g sh threadId = true) →
      StepOk h sh threadId helping f (g :: gs) [] sh (g.resume res :: gs) := by
    intro res hres hfinds
    obtain ⟨e, he, ho⟩ := hinv.result _ _ _ hres
    refine hframes.step_return hinv hevol he ho (hfind.imp_right fun hno r hr => ?_)
    rw [hfinds r hr] at hno
    cases hno
  obtain ⟨w, hp | hp⟩ := hphase
  · have hd : f.phase.hasDesc = false := by rw [hp]; rfl
    simp only [FrameOk, hp] at hf
    obtain ⟨hun, hseen, hcur⟩ := hf
    have hcur : (sh.slots g.desc g.pos).current = some w := hcur
    simp only [stepFrame, hp] at hstep
    split at hstep
    · rename_i hself
      cases hstep
      have hself' : sh.lockIsSelf (sh.descs g.desc).threadId w = true := by rwa [hdesc.threadId]
      have hinline : g.inline =
          { g with rest := f.body.bind fun r => k (some r), pos := g.pos + 1 } := by
        simp [Frame.inline, hk]
      rw [hinline]
      refine ⟨hevol, ?_, .pop _ rfl rfl (.inr fun e he _ => ?_) hframes.2.1.1⟩
      · have hat := hevol.1.at hinv.toLogInv (.inline hruns.2.2 hcur hself')
        exact (hevol.1.stackOk hinv hframes.2.2).resume hframes.2.1.1 hat
      · obtain ⟨w', hw', hother, _⟩ := (hinv.child _ _ _ he).aim
        rw [hcur] at hw'
        cases hw'
        rw [hself'] at hother
        cases hother
    · rename_i hself
      rw [Bool.not_eq_true] at hself
      split at hstep
      · rename_i res hres
        cases hstep
        refine hresult res hres ?_
        rintro r rfl
        simp [Frame.findsResult, hp, hres, hself]
      · cases hstep
        refine hframes.step_plain hinv hevol (by simp) hd ?_
        exact ⟨hun, hevol.1.seen hseen, hcur⟩
      · rename_i hres hnone
        cases hstep
        have hself' : sh.lockIsSelf (sh.descs g.desc).threadId w = false := by
          rwa [hdesc.threadId]
        have hevol := hinv.allocate_child (D := f.descriptor (sh.descs g.desc).root w threadId)
          rfl rfl rfl hdesc.threadId.symm hruns.2.1 hruns.2.2 hcur hself' hnone
        have hnew : ((sh.allocate (f.descriptor (sh.descs g.desc).root w threadId)).setSlot
            g.desc g.pos { sh.slots g.desc g.pos with desc := some sh.fresh }).descs sh.fresh =
            f.descriptor (sh.descs g.desc).root w threadId := Function.update_self ..
        refine hframes.step_acquire hinv hevol hd hun (Nat.lt_succ_self _) ?_ ?_ ?_ ?_ ?_ ?_
        · rw [hnew]; rfl
        · rw [hnew]; rfl
        · rw [hnew]; rfl
        · rw [hnew]; rfl
        · rintro ⟨⟩
        · rintro _ _ ⟨⟩
          simp [setSlot_slots]
  · have hd : f.phase.hasDesc = false := by rw [hp]; rfl
    simp only [FrameOk, hp] at hf
    obtain ⟨hun, hseen, hcur⟩ := hf
    have hcur : (sh.slots g.desc g.pos).current = some w := hcur
    simp only [stepFrame, hp] at hstep
    split at hstep
    · rename_i res hres
      cases hstep
      refine hresult res hres ?_
      rintro r rfl
      simp [Frame.findsResult, hp, hres]
    · rename_i e _ he
      cases hstep
      have hchild := hinv.child _ _ _ he
      obtain ⟨k', hk'⟩ := hchild.call
      obtain ⟨w', hw', _, hcount⟩ := hchild.aim
      rw [hcur] at hw'
      cases hw'
      have hsame := hruns.2.2.unique hk'
      simp only [Thunk.tryLock.injEq] at hsame
      exact hframes.step_acquire hinv hevol hd hun hchild.fresh
        (hchild.threadId.trans hdesc.threadId) hsame.1 hsame.2.1 hcount (by rintro ⟨⟩)
        (by rintro _ _ ⟨⟩; exact he)
    · cases hstep

/-- The return of a call. -/
theorem StackOk.step_retire {res : Option Nat}
    (hframes : StackOk h sh threadId helping (f :: outer)) (hinv : SharedInv h sh)
    (hp : f.phase = .retire res)
    (hstep : stepFrame sh threadId helping v f outer = some (es, sh', frames)) :
    StepOk h sh threadId helping f outer es sh' frames := by
  have hd : f.phase.hasDesc = true := by rw [hp]; rfl
  have hdesc := hframes.head.desc hd
  have hok := hdesc.phase
  rw [hp] at hok
  cases outer with
  | nil =>
      simp only [stepFrame, hp, Option.some.injEq, Prod.mk.injEq] at hstep
      obtain ⟨rfl, rfl, rfl⟩ := hstep
      cases hh : helping with
      | true => exact ⟨hinv.events (by simp), trivial, .leave (.inl rfl)⟩
      | false => exact ⟨hinv.events (by simp), trivial, .returns rfl hp⟩
  | cons g gs =>
      simp only [stepFrame, hp, Option.some.injEq, Prod.mk.injEq] at hstep
      obtain ⟨rfl, rfl, rfl⟩ := hstep
      have ho : Outcome h sh f.desc res := by
        cases res with
        | none => exact hok
        | some r => exact ⟨hok.2.1, f.pos, hok.2.2⟩
      have hevol : Evolves h sh [] (if f.own then sh.setSlot g.desc g.pos
          { sh.slots g.desc g.pos with result := some res } else sh) := by
        split
        · refine hinv.setSlot (fun _ hv => hv) (fun _ hw => hw) rfl (fun _ hw => .inl hw) ?_
          rintro _ ⟨⟩
          exact .inr ⟨f.desc, hdesc.linked, ho⟩
        · exact hinv.events (by simp)
      refine hframes.step_return hinv hevol hdesc.linked ho (.inr ?_)
      rintro r rfl
      exact ⟨hd, rfl, hok.2.2⟩

/-- Every step of a context in which no owner finds a result. -/
theorem StackOk.step (hframes : StackOk h sh threadId helping (f :: outer)) (hinv : SharedInv h sh)
    (hfind : helping = true ∨ ∀ g gs, outer = g :: gs → f.findsResult g sh threadId = false)
    (hstep : stepFrame sh threadId helping v f outer = some (es, sh', frames)) :
    StepOk h sh threadId helping f outer es sh' frames := by
  match hp : f.phase with
  | .load => exact hframes.step_load hinv (.inl hp) hstep
  | .commit w => exact hframes.step_load hinv (.inr ⟨w, hp⟩) hstep
  | .alloc w =>
      cases outer with
      | nil => exact hframes.step_alloc_root hinv hp hstep
      | cons g gs =>
          exact hframes.step_alloc hinv ⟨w, .inl hp⟩ (hfind.imp_right fun hf => hf g gs rfl) hstep
  | .reload w =>
      cases outer with
      | nil =>
          simp only [stepFrame, hp] at hstep
          cases hstep
      | cons g gs =>
          exact hframes.step_alloc hinv ⟨w, .inr hp⟩ (hfind.imp_right fun hf => hf g gs rfl) hstep
  | .casRead x => exact hframes.step_cas hinv (.inl ⟨x, .inl hp⟩) hstep
  | .cas x => exact hframes.step_cas hinv (.inl ⟨x, .inr hp⟩) hstep
  | .after => exact hframes.step_cas hinv (.inr (.inl hp)) hstep
  | .test seen => exact hframes.step_cas hinv (.inr (.inr ⟨seen, hp⟩)) hstep
  | .look => exact hframes.step_help hinv (.inl hp) hstep
  | .check => exact hframes.step_help hinv (.inr hp) hstep
  | .run => exact hframes.step_run hinv hp hstep
  | .finish r => exact hframes.step_clear hinv ⟨r, .inl hp⟩ hstep
  | .clear r => exact hframes.step_clear hinv ⟨r, .inr (.inl hp)⟩ hstep
  | .clearCount r => exact hframes.step_clear hinv ⟨r, .inr (.inr (.inl hp))⟩ hstep
  | .clearSwap r n => exact hframes.step_clear hinv ⟨r, .inr (.inr (.inr ⟨n, hp⟩))⟩ hstep
  | .retire res => exact hframes.step_retire hinv hp hstep

end Steps

end Verlib.Flock.Nested
