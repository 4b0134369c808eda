import Verlib.SortedList.Content

/-!
# Runs on the sorted list

A search knows that the key of `cur` is below its own and that both of its nodes exist, whatever happens
to them meanwhile. Together with the test that `cur` is not removed and still followed by `nxt` this
decides where the key belongs, so a body does what its operation should do, and a validation shows that
the list contained the key, or did not, when `next` was read.
-/

namespace Verlib.SortedList

open Interleaving

variable {K V ι : Type} [LinearOrder K]

/-! ## What a thread knows -/

/-- The nodes of a search. -/
structure At (m : Memory K V) (o : Op K V) (cur nxt : Nat) : Prop where
  cur_pos : 0 < cur
  cur_lt : cur < m.fresh
  cur_end : (m.nodes cur).isEnd = false
  cur_key : cur = root ∨ (m.nodes cur).key < o.key
  nxt_pos : 0 < nxt
  nxt_lt : nxt < m.fresh

/-- The search says that the operation has nothing to do. -/
def Op.Nothing (o : Op K V) (m : Memory K V) (nxt : Nat) : Prop :=
  match o with
  | .insert k _ => (m.nodes nxt).isEnd = false ∧ (m.nodes nxt).key = k
  | .remove k => (m.nodes nxt).isEnd = true ∨ k < (m.nodes nxt).key

/-- The search says that the operation has something to do. -/
def Op.Todo (o : Op K V) (m : Memory K V) (nxt : Nat) : Prop :=
  match o with
  | .insert k _ => (m.nodes nxt).isEnd = true ∨ k < (m.nodes nxt).key
  | .remove k => (m.nodes nxt).isEnd = false ∧ (m.nodes nxt).key = k

/-- Since the call there was a moment at which the operation could return false. -/
def Seen (h : List (Event K V)) (op : Nat) (o : Op K V) : Prop :=
  ∃ m m', [.call op o, .step op m m'].Sublist h ∧ o.Refused m'.content

/-- The operation has been called and has changed nothing. -/
def Running (h : List (Event K V)) (op : Nat) (o : Op K V) : Prop :=
  .call op o ∈ h ∧ NoChange h op

/-- What a thread knows at its position. -/
def PcOk (m : Memory K V) (h : List (Event K V)) : Pc K V → Prop
  | .idle => True
  | .first op o => Running h op o
  | .search op o cur nxt => Running h op o ∧ At m o cur nxt
  | .readNext op o cur nxt => Running h op o ∧ At m o cur nxt ∧ o.Nothing m nxt
  | .readRemoved op o cur nxt => Running h op o ∧ At m o cur nxt ∧
      ((m.nodes cur).removed = false → Seen h op o)
  | .lock op o cur nxt => Running h op o ∧ At m o cur nxt ∧ o.Todo m nxt

/-- The call that a thread executes. -/
def Pc.op : Pc K V → Option Nat
  | .idle => none
  | .first op _ | .search op _ _ _ | .readNext op _ _ _ | .readRemoved op _ _ _ | .lock op _ _ _ =>
      some op

/-- The call to which an event belongs. -/
def Event.op : Event K V → Nat
  | .call op _ | .step op _ _ | .ret op _ => op

section Transport

variable {m m' : Memory K V} {h es : List (Event K V)} {op cur nxt : Nat} {o : Op K V}

/-- The nodes of a search stay what they are. -/
theorem At.ext (hext : Ext m m') (ha : At m o cur nxt) : At m' o cur nxt := by
  refine ⟨ha.cur_pos, ha.cur_lt.trans_le hext.fresh, ?_, ?_, ha.nxt_pos, ha.nxt_lt.trans_le hext.fresh⟩
  · rw [hext.isEnd cur ha.cur_lt, ha.cur_end]
  · rw [hext.key cur ha.cur_lt]
    exact ha.cur_key

omit [LinearOrder K] in
/-- Events that do not change the keys for the call keep it running. -/
theorem Running.append (hr : Running h op o) (hes : NoChange es op) : Running (h ++ es) op o :=
  ⟨List.mem_append_left _ hr.1, fun m m' he => (List.mem_append.mp he).elim (hr.2 m m') (hes m m')⟩

omit [LinearOrder K] in
/-- A moment stays one. -/
theorem Seen.append (hs : Seen h op o) (es : List (Event K V)) : Seen (h ++ es) op o := by
  obtain ⟨m, m', hsub, hr⟩ := hs
  exact ⟨m, m', hsub.trans (List.sublist_append_left h es), hr⟩

/-- What a thread knows stays known. -/
theorem PcOk.ext {pc : Pc K V} (hext : Ext m m') (hes : ∀ op, pc.op = some op → NoChange es op)
    (hpc : PcOk m h pc) : PcOk m' (h ++ es) pc := by
  cases pc with
  | idle => trivial
  | first op o => exact hpc.append (hes op rfl)
  | search op o cur nxt => exact ⟨hpc.1.append (hes op rfl), hpc.2.ext hext⟩
  | readNext op o cur nxt =>
      obtain ⟨hr, ha, hn⟩ := hpc
      refine ⟨hr.append (hes op rfl), ha.ext hext, ?_⟩
      cases o with
      | insert k v | remove k =>
          simp only [Op.Nothing, hext.isEnd nxt ha.nxt_lt, hext.key nxt ha.nxt_lt]
          exact hn
  | readRemoved op o cur nxt =>
      obtain ⟨hr, ha, hs⟩ := hpc
      exact ⟨hr.append (hes op rfl), ha.ext hext,
        fun hlive => (hs (hext.removed cur ha.cur_lt hlive)).append es⟩
  | lock op o cur nxt =>
      obtain ⟨hr, ha, ht⟩ := hpc
      refine ⟨hr.append (hes op rfl), ha.ext hext, ?_⟩
      cases o with
      | insert k v | remove k =>
          simp only [Op.Todo, hext.isEnd nxt ha.nxt_lt, hext.key nxt ha.nxt_lt]
          exact ht

end Transport

/-! ## Steps that change nothing -/

section Steps

variable {m m' : Memory K V} {p : List Nat} {h : List (Event K V)} {op cur nxt : Nat} {o : Op K V}

/-- A search that stops. -/
theorem located_ok (hr : Running h op o) (ha : At m o cur nxt)
    (hstop : (m.nodes nxt).isEnd = true ∨ ¬ (m.nodes nxt).key < o.key) :
    PcOk m h (o.located op m cur nxt) := by
  cases o with
  | insert k v =>
      simp only [Op.located]
      split
      · rename_i hcond
        refine ⟨hr, ha, hcond.1, ?_⟩
        rcases hstop with hend | hge
        · rw [hcond.1] at hend
          cases hend
        · exact le_antisymm (not_lt.mp hcond.2) (not_lt.mp hge)
      · rename_i hcond
        refine ⟨hr, ha, ?_⟩
        rw [not_and_or, not_not, Bool.not_eq_false] at hcond
        exact hcond
  | remove k =>
      simp only [Op.located]
      split
      · rename_i hcond
        exact ⟨hr, ha, hcond⟩
      · rename_i hcond
        rw [not_or, Bool.not_eq_true] at hcond
        refine ⟨hr, ha, hcond.1, ?_⟩
        rcases hstop with hend | hge
        · rw [hcond.1] at hend
          cases hend
        · exact le_antisymm (not_lt.mp hcond.2) (not_lt.mp hge)

/-- One turn of the search. -/
theorem find_ok (hm : MemInv m p) (hr : Running h op o) (ha : At m o cur nxt) :
    PcOk m h (o.find op m cur nxt) := by
  unfold Op.find
  dsimp only
  split
  · rename_i hstop
    exact located_ok hr ha hstop
  · rename_i hgo
    rw [not_or, not_not, Bool.not_eq_true] at hgo
    obtain ⟨h0, h1⟩ := hm.next nxt ha.nxt_pos ha.nxt_lt hgo.1
    exact ⟨hr, ⟨ha.nxt_pos, ha.nxt_lt, hgo.1, .inr hgo.2, h0, h1⟩⟩

/-- When `next` of a node that is not removed is read, the search is right about the list. -/
theorem refused_of_read (hm : MemInv m p) (ha : At m o cur nxt) (hn : o.Nothing m nxt)
    (hlive : (m.nodes cur).removed = false) (hnext : (m.nodes cur).next = nxt) :
    o.Refused m.content := by
  obtain ⟨xs, ys, rfl⟩ := hm.split ha.cur_pos ha.cur_lt ha.cur_end hlive
  rw [hnext] at hm
  cases o with
  | insert k v =>
      obtain ⟨hnot, rfl⟩ := hn
      exact hm.mem_content_of_mem (by simp) hm.around.2.1.1 hnot
  | remove k => exact hm.not_mem_content ha.cur_key hn

/-- The body of an operation does what the operation should do. -/
theorem body_ok {recorded : Bool} {locks : Nat → Bool} (hm : MemInv m p) (ha : At m o cur nxt)
    (ht : o.Todo m nxt) (hbody : o.body recorded locks m cur nxt = some m') :
    (∃ p', MemInv m' p') ∧ Ext m m' ∧ o.Effect m.content m'.content := by
  cases o with
  | insert k v =>
      simp only [Op.body, insertBody] at hbody
      split at hbody
      · rename_i hcond
        obtain ⟨_, hlive, hnext⟩ := hcond
        obtain ⟨xs, ys, rfl⟩ := hm.split ha.cur_pos ha.cur_lt ha.cur_end hlive
        rw [hnext] at hm
        cases hbody
        exact ⟨⟨_, hm.insert ha.cur_key ht⟩, hm.insert_ext, hm.not_mem_content ha.cur_key ht,
          hm.insert_content ha.cur_key ht⟩
      · cases hbody
  | remove k =>
      simp only [Op.body, removeBody] at hbody
      split at hbody
      · rename_i hcond
        obtain ⟨_, hlive, hnext, _⟩ := hcond
        obtain ⟨hnot, rfl⟩ := ht
        obtain ⟨xs, ys, rfl⟩ := hm.split ha.cur_pos ha.cur_lt ha.cur_end hlive
        rw [hnext] at hm
        have hin : (m.nodes nxt).key ∈ m.content :=
          hm.mem_content_of_mem (by simp) hm.around.2.1.1 hnot
        have hm' : MemInv m ((xs ++ [cur]) ++ nxt :: ys) := by simpa using hm
        -- The removed node is no end node, so another one follows it.
        have hys : ∃ ws', ys = (m.nodes nxt).next :: ws' := by
          cases ys with
          | nil =>
              obtain ⟨e, he, _, hend⟩ := hm'.last_of_append
              obtain rfl : nxt = e := by simpa using he
              rw [hnot] at hend
              cases hend
          | cons b ws' =>
              have hlink := (List.isChain_append_cons_cons.mp hm'.chain).2.1
              exact ⟨ws', by rw [hlink.1.2]⟩
        obtain ⟨ws', rfl⟩ := hys
        cases recorded with
        | true =>
            simp only [if_true] at hbody
            split at hbody
            · cases hbody
              obtain ⟨hinv, hext, hkey, hend⟩ := hm.copyNext
              exact ⟨⟨_, hinv⟩, hext, hin, hm.remove_content hinv hext hkey hend⟩
            · cases hbody
        | false =>
            cases hbody
            obtain ⟨hinv, hext⟩ := hm.remove
            have hlt := (hm.alloc (m.nodes nxt).next (by simp)).2
            exact ⟨⟨_, hinv⟩, hext, hin, hm.remove_content hinv hext (hext.key _ hlt) (hext.isEnd _ hlt)⟩
      · cases hbody

end Steps

/-! ## The history -/

/-- What the history says. -/
structure HistInv (h : List (Event K V)) (ops : Nat) : Prop where
  op_lt : ∀ e ∈ h, e.op < ops
  call_unique : ∀ op o o', .call op o ∈ h → .call op o' ∈ h → o = o'
  ret_true : ∀ op, .ret op true ∈ h → ∃ o, .call op o ∈ h ∧ Changed h op o
  ret_false : ∀ op, .ret op false ∈ h → ∃ o, Running h op o ∧
    ∃ m m', [.call op o, .step op m m', .ret op false].Sublist h ∧ o.Refused m'.content

section History

variable {h es : List (Event K V)} {op ops : Nat}

omit [LinearOrder K] in
/-- Events of other calls change nothing for a call. -/
theorem noChange_of_op (hes : ∀ e ∈ es, e.op ≠ op) : NoChange es op :=
  fun _ _ he => absurd rfl (hes _ he)

omit [LinearOrder K] in
/-- The effect of a call stays its only one. -/
theorem Changed.append {o : Op K V} (hc : Changed h op o) (hes : NoChange es op) :
    Changed (h ++ es) op o := by
  obtain ⟨h₁, h₂, m, m', rfl, heff, hno₁, hno₂⟩ := hc
  refine ⟨h₁, h₂ ++ es, m, m', by simp, heff, hno₁, fun n n' he => ?_⟩
  exact (List.mem_append.mp he).elim (hno₂ n n') (hes n n')

omit [LinearOrder K] in
/-- Events that return nothing are added. -/
theorem HistInv.append (hist : HistInv h ops) {ops' : Nat} (hle : ops ≤ ops')
    (hop : ∀ e ∈ es, e.op < ops') (hlive : ∀ e ∈ es, ∀ b, .ret e.op b ∉ h)
    (hcall : ∀ op o, .call op o ∈ es → es = [.call op o] ∧ ∀ o', .call op o' ∉ h)
    (hret : ∀ op b, .ret op b ∉ es) : HistInv (h ++ es) ops' := by
  have hother : ∀ {op b}, .ret op b ∈ h → NoChange es op := fun hmem =>
    noChange_of_op fun e he heq => hlive e he _ (heq ▸ hmem)
  refine ⟨fun e he => ?_, fun op o o' ho ho' => ?_, fun op hr => ?_, fun op hr => ?_⟩
  · rcases List.mem_append.mp he with he | he
    · exact (hist.op_lt e he).trans_le hle
    · exact hop e he
  · rcases List.mem_append.mp ho with ho | ho
    · rcases List.mem_append.mp ho' with ho' | ho'
      · exact hist.call_unique op o o' ho ho'
      · exact absurd ho ((hcall op o' ho').2 o)
    · obtain ⟨heq, hno⟩ := hcall op o ho
      rcases List.mem_append.mp ho' with ho' | ho'
      · exact absurd ho' (hno o')
      · rw [heq, List.mem_singleton] at ho'
        cases ho'
        rfl
  · have hold := (List.mem_append.mp hr).resolve_right (hret op true)
    obtain ⟨o, ho, hch⟩ := hist.ret_true op hold
    exact ⟨o, List.mem_append_left _ ho, hch.append (hother hold)⟩
  · have hold := (List.mem_append.mp hr).resolve_right (hret op false)
    obtain ⟨o, hrun, m, m', hsub, href⟩ := hist.ret_false op hold
    exact ⟨o, hrun.append (hother hold), m, m', hsub.trans (List.sublist_append_left h es), href⟩

omit [LinearOrder K] in
/-- A call returns. -/
theorem HistInv.ret (hist : HistInv h ops) {b : Bool} {o : Op K V} (hlt : op < ops)
    (hcall : .call op o ∈ h) (htrue : b = true → Changed h op o)
    (hfalse : b = false → NoChange h op ∧ Seen h op o) : HistInv (h ++ [.ret op b]) ops := by
  have hsilent : ∀ op', NoChange [(.ret op b : Event K V)] op' := by
    intro op' m m' he
    simp at he
  refine ⟨fun e he => ?_, fun op' o₁ o₂ h₁ h₂ => ?_, fun op' hr => ?_, fun op' hr => ?_⟩
  · rcases List.mem_append.mp he with he | he
    · exact hist.op_lt e he
    · rw [List.mem_singleton.mp he]
      exact hlt
  · simp only [List.mem_append, List.mem_singleton, reduceCtorEq, or_false] at h₁ h₂
    exact hist.call_unique op' o₁ o₂ h₁ h₂
  · rw [List.mem_append, List.mem_singleton] at hr
    rcases hr with hr | heq
    · obtain ⟨o', ho', hch⟩ := hist.ret_true op' hr
      exact ⟨o', List.mem_append_left _ ho', hch.append (hsilent op')⟩
    · cases heq
      exact ⟨o, List.mem_append_left _ hcall, (htrue rfl).append (hsilent op)⟩
  · rw [List.mem_append, List.mem_singleton] at hr
    rcases hr with hr | heq
    · obtain ⟨o', hrun, m, m', hsub, href⟩ := hist.ret_false op' hr
      exact ⟨o', hrun.append (hsilent op'), m, m', hsub.trans (List.sublist_append_left h _), href⟩
    · cases heq
      obtain ⟨hno, m, m', hsub, href⟩ := hfalse rfl
      exact ⟨o, Running.append ⟨hcall, hno⟩ (hsilent op), m, m', hsub.append (List.Sublist.refl _), href⟩

end History

/-! ## Runs -/

/-- What a step of a thread establishes. -/
structure StepOk (m : Memory K V) (h : List (Event K V)) (ops : Nat) (pc : Pc K V) (op : Nat)
    (m' : Memory K V) (es : List (Event K V)) (pc' : Pc K V) : Prop where
  current : pc.op = some op
  mem : ∃ p, MemInv m' p
  ext : Ext m m'
  hist : HistInv (h ++ es) ops
  known : PcOk m' (h ++ es) pc'
  events : ∀ e ∈ es, e.op = op
  live : ∀ op', pc'.op = some op' → op' = op ∧ ∀ b, .ret op b ∉ es

section Steps

variable {m m' : Memory K V} {p : List Nat} {h : List (Event K V)} {op ops : Nat} {pc pc' : Pc K V}

/-- A step that reads and goes on. -/
theorem stepOk_read (hm : MemInv m p) (hist : HistInv h ops) (hop : pc.op = some op)
    (hop' : pc'.op = some op) (hlive : op < ops ∧ ∀ b, .ret op b ∉ h) (hpc : PcOk m h pc)
    (hnext : PcOk m (h ++ [.step op m m]) pc → PcOk m (h ++ [.step op m m]) pc') :
    StepOk m h ops pc op m [.step op m m] pc' := by
  have hsilent : ∀ op', NoChange [.step op m m] op' := by
    intro op' n n' he
    rw [List.mem_singleton] at he
    cases he
    rfl
  refine ⟨hop, ⟨p, hm⟩, Ext.refl m, ?_, hnext (hpc.ext (Ext.refl m) fun op' _ => hsilent op'), ?_, ?_⟩
  · refine hist.append le_rfl ?_ ?_ (by simp) (by simp)
    · intro e he
      rw [List.mem_singleton.mp he]
      exact hlive.1
    · intro e he
      rw [List.mem_singleton.mp he]
      exact hlive.2
  · intro e he
    rw [List.mem_singleton.mp he]
    rfl
  · intro op' ho
    rw [hop'] at ho
    exact ⟨(Option.some.inj ho).symm, by simp⟩

/-- A step that returns. -/
theorem stepOk_ret {b : Bool} {o : Op K V} (hm' : ∃ p, MemInv m' p) (hext : Ext m m')
    (hist : HistInv h ops) (hop : pc.op = some op) (hlive : op < ops ∧ ∀ b, .ret op b ∉ h)
    (hcall : .call op o ∈ h) (htrue : b = true → Changed (h ++ [.step op m m']) op o)
    (hfalse : b = false → NoChange (h ++ [.step op m m']) op ∧ Seen (h ++ [.step op m m']) op o) :
    StepOk m h ops pc op m' [.step op m m', .ret op b] .idle := by
  have happ : h ++ [.step op m m', .ret op b] = (h ++ [.step op m m']) ++ [.ret op b] := by simp
  have hstep : HistInv (h ++ [.step op m m']) ops := by
    refine hist.append le_rfl ?_ ?_ (by simp) (by simp)
    · intro e he
      rw [List.mem_singleton.mp he]
      exact hlive.1
    · intro e he
      rw [List.mem_singleton.mp he]
      exact hlive.2
  refine ⟨hop, hm', hext, ?_, trivial, ?_, by rintro _ ⟨⟩⟩
  · rw [happ]
    exact hstep.ret hlive.1 (List.mem_append_left _ hcall) htrue hfalse
  · intro e he
    rcases List.mem_cons.mp he with rfl | he
    · rfl
    · rw [List.mem_singleton.mp he]
      rfl

/-- Every step of a thread. -/
theorem stepThread_ok {recorded : Bool} {locks : Nat → Bool} {r : Option Bool} (hm : MemInv m p)
    (hist : HistInv h ops) (hpc : PcOk m h pc)
    (hlive : ∀ op, pc.op = some op → op < ops ∧ ∀ b, .ret op b ∉ h)
    (hstep : stepThread recorded m locks pc = some (op, m', r, pc')) :
    StepOk m h ops pc op m' (.step op m m' :: r.toList.map (.ret op)) pc' := by
  have hroot : 0 < root := by decide
  cases pc with
  | idle => cases hstep
  | first op o =>
      cases hstep
      refine stepOk_read hm hist rfl rfl (hlive _ rfl) hpc fun hold => ⟨hold, ?_⟩
      obtain ⟨h0, h1⟩ := hm.next root hroot hm.root_lt hm.start
      exact ⟨hroot, hm.root_lt, hm.start, .inl rfl, h0, h1⟩
  | search op o cur nxt =>
      cases hstep
      refine stepOk_read hm hist rfl ?_ (hlive _ rfl) hpc fun hold => find_ok hm hold.1 hold.2
      unfold Op.find
      dsimp only
      split
      · cases o with
        | insert k v | remove k =>
            simp only [Op.located]
            split <;> rfl
      · rfl
  | readNext op o cur nxt =>
      cases hstep
      refine stepOk_read hm hist rfl ?_ (hlive _ rfl) hpc fun hold => ?_
      · split <;> rfl
      · split
        · rename_i hnext
          obtain ⟨hr, ha, hn⟩ := hold
          refine ⟨hr, ha, fun hfree => ⟨m, m, ?_, refused_of_read hm ha hn hfree hnext⟩⟩
          exact (List.singleton_sublist.mpr hpc.1.1).append (List.Sublist.refl [_])
        · exact hold.1
  | readRemoved op o cur nxt =>
      simp only [stepThread] at hstep
      split at hstep
      · rename_i hfree
        cases hstep
        have hsilent : NoChange [.step op m m] op := by
          intro n n' he
          rw [List.mem_singleton] at he
          cases he
          rfl
        refine stepOk_ret ⟨p, hm⟩ (Ext.refl m) hist rfl (hlive _ rfl) hpc.1.1 (fun hb => by cases hb)
          fun _ => ⟨(hpc.1.append hsilent).2, (hpc.2.2 hfree).append _⟩
      · cases hstep
        exact stepOk_read hm hist rfl rfl (hlive _ rfl) hpc fun hold => hold.1
  | lock op o cur nxt =>
      simp only [stepThread] at hstep
      split at hstep
      · rename_i m₁ hbody
        cases hstep
        obtain ⟨hm', hext, heff⟩ := body_ok hm hpc.2.1 hpc.2.2 hbody
        refine stepOk_ret hm' hext hist rfl (hlive _ rfl) hpc.1.1 (fun _ => ?_) fun hb => by cases hb
        exact ⟨h, [], m, m', rfl, heff, hpc.1.2, by intro n n' he; cases he⟩
      · cases hstep
        exact stepOk_read hm hist rfl rfl (hlive _ rfl) hpc fun hold => hold.1

end Steps

/-- The invariant of the system. -/
structure Inv (h : List (Event K V)) (st : State K V ι) : Prop where
  mem : ∃ p, MemInv st.memory p
  hist : HistInv h st.ops
  pcs : ∀ c, PcOk st.memory h (st.threads c)
  live : ∀ c op, (st.threads c).op = some op → op < st.ops ∧ ∀ b, .ret op b ∉ h
  distinct : ∀ c c' op, (st.threads c).op = some op → (st.threads c').op = some op → c = c'

/-- The empty list. -/
theorem memInv_initial {m : Memory K V} (hm : m.Initial) : MemInv m [root, 2] := by
  obtain ⟨⟨hnext, hnot, hlive⟩, ⟨_, hend, hlive'⟩, hfresh⟩ := hm
  refine ⟨?_, rfl, ⟨2, rfl, hend⟩, hnot, ?_, ?_, ?_, ?_⟩
  · exact List.isChain_pair.mpr ⟨⟨hnot, hnext⟩, by decide, hnot, .inl hend⟩
  · rw [hfresh]
    decide
  · intro a h0 h1 _
    rw [hfresh] at h1
    simp only [root, List.mem_cons, List.not_mem_nil, or_false]
    omega
  · simp [hlive, hlive']
  · intro a h0 h1 ha
    rw [hfresh] at h1 ⊢
    have hcases : a = root ∨ a = 2 := by
      unfold root
      omega
    rcases hcases with rfl | rfl
    · rw [hnext]
      decide
    · rw [hend] at ha
      cases ha

variable [DecidableEq ι]

/-- A step of a thread keeps the invariant. -/
theorem Inv.step {h es : List (Event K V)} {st : State K V ι} {c : ι} {op : Nat} {m' : Memory K V}
    {pc' : Pc K V} (hinv : Inv h st)
    (hok : StepOk st.memory h st.ops (st.threads c) op m' es pc') :
    Inv (h ++ es) ⟨m', Function.update st.threads c pc', st.ops⟩ := by
  have hself : Function.update st.threads c pc' c = pc' := Function.update_self ..
  have hother : ∀ c', c' ≠ c → Function.update st.threads c pc' c' = st.threads c' :=
    fun c' hne => Function.update_of_ne hne _ _
  have hforeign : ∀ {c' op'}, c' ≠ c → (st.threads c').op = some op' → ∀ e ∈ es, e.op ≠ op' := by
    intro c' op' hne hop e he heq
    rw [hok.events e he] at heq
    subst heq
    exact hne (hinv.distinct c' c _ hop hok.current)
  have hold : ∀ {c' op'}, (Function.update st.threads c pc' c').op = some op' →
      (st.threads c').op = some op' := by
    intro c' op' hop
    rcases eq_or_ne c' c with rfl | hne
    · rw [hself] at hop
      rw [(hok.live op' hop).1]
      exact hok.current
    · rwa [hother c' hne] at hop
  refine ⟨hok.mem, hok.hist, fun c' => ?_, fun c' op' hop => ?_,
    fun c₁ c₂ op' h₁ h₂ => hinv.distinct c₁ c₂ op' (hold h₁) (hold h₂)⟩
  · show PcOk _ _ (Function.update st.threads c pc' c')
    rcases eq_or_ne c' c with rfl | hne
    · rw [hself]
      exact hok.known
    · rw [hother c' hne]
      exact (hinv.pcs c').ext hok.ext fun op' hop => noChange_of_op (hforeign hne hop)
  · obtain ⟨hlt, hret⟩ := hinv.live c' op' (hold hop)
    refine ⟨hlt, fun b hb => (List.mem_append.mp hb).elim (hret b) fun he => ?_⟩
    rcases eq_or_ne c' c with rfl | hne
    · have hop : (Function.update st.threads c' pc' c').op = some op' := hop
      rw [hself] at hop
      obtain ⟨rfl, hno⟩ := hok.live op' hop
      exact hno b he
    · exact hforeign hne (hold hop) _ he rfl

/-- An operation is called. -/
theorem Inv.call {h : List (Event K V)} {st : State K V ι} {c : ι} {o : Op K V} (hinv : Inv h st) :
    Inv (h ++ [.call st.ops o])
      ⟨st.memory, Function.update st.threads c (.first st.ops o), st.ops + 1⟩ := by
  have hself : Function.update st.threads c (.first st.ops o) c = .first st.ops o :=
    Function.update_self ..
  have hother : ∀ c', c' ≠ c → Function.update st.threads c (.first st.ops o) c' = st.threads c' :=
    fun c' hne => Function.update_of_ne hne _ _
  have hfresh : ∀ e ∈ h, e.op ≠ st.ops := fun e he => (hinv.hist.op_lt e he).ne
  have hsilent : ∀ op, NoChange [(.call st.ops o : Event K V)] op := by
    intro op m m' he
    simp at he
  have hcases : ∀ {c' op}, (Function.update st.threads c (.first st.ops o) c').op = some op →
      c' = c ∧ op = st.ops ∨ (st.threads c').op = some op := by
    intro c' op hop
    rcases eq_or_ne c' c with rfl | hne
    · rw [hself] at hop
      exact .inl ⟨rfl, (Option.some.inj hop).symm⟩
    · rw [hother c' hne] at hop
      exact .inr hop
  refine ⟨hinv.mem, hinv.hist.append (Nat.le_succ _) ?_ ?_ ?_ (by simp), fun c' => ?_,
    fun c' op hop => ?_, fun c₁ c₂ op h₁ h₂ => ?_⟩
  · intro e he
    rw [List.mem_singleton.mp he]
    exact Nat.lt_succ_self _
  · intro e he b hb
    rw [List.mem_singleton.mp he] at hb
    exact hfresh _ hb rfl
  · intro op o' ho'
    rw [List.mem_singleton] at ho'
    cases ho'
    exact ⟨rfl, fun o' ho' => hfresh _ ho' rfl⟩
  · show PcOk _ _ (Function.update st.threads c _ c')
    rcases eq_or_ne c' c with rfl | hne
    · rw [hself]
      exact ⟨by simp, fun m m' he => (List.mem_append.mp he).elim
        (fun he => absurd rfl (hfresh _ he)) (hsilent st.ops m m')⟩
    · rw [hother c' hne]
      exact (hinv.pcs c').ext (Ext.refl _) fun op _ => hsilent op
  · rcases hcases hop with ⟨_, rfl⟩ | hold
    · refine ⟨Nat.lt_succ_self _, fun b hb => ?_⟩
      rw [List.mem_append, List.mem_singleton] at hb
      rcases hb with hb | heq
      · exact hfresh _ hb rfl
      · cases heq
    · obtain ⟨hlt, hret⟩ := hinv.live c' op hold
      refine ⟨hlt.trans (Nat.lt_succ_self _), fun b hb => ?_⟩
      rw [List.mem_append, List.mem_singleton] at hb
      rcases hb with hb | heq
      · exact hret b hb
      · cases heq
  · rcases hcases h₁ with ⟨rfl, rfl⟩ | hold₁
    · rcases hcases h₂ with ⟨rfl, _⟩ | hold₂
      · rfl
      · exact absurd (hinv.live c₂ _ hold₂).1 (Nat.lt_irrefl _)
    · rcases hcases h₂ with ⟨rfl, rfl⟩ | hold₂
      · exact absurd (hinv.live c₁ _ hold₁).1 (Nat.lt_irrefl _)
      · exact hinv.distinct c₁ c₂ op hold₁ hold₂

/-- Every run keeps the invariant. -/
theorem exec_inv {recorded : Bool} {h : List (Event K V)} {st : State K V ι}
    (hexec : Exec (system recorded) h st) : Inv h st := by
  refine hexec.invariant (P := Inv) ?_ ?_
  · rintro st ⟨hm, hidle, hops⟩
    refine ⟨⟨_, memInv_initial hm⟩, ⟨by simp, by simp, by simp, by simp⟩, fun c => ?_, fun c op hop => ?_,
      fun c c' op hop => ?_⟩
    · rw [hidle c]
      trivial
    · rw [hidle c] at hop
      cases hop
    · rw [hidle c] at hop
      cases hop
  · rintro h st a es st' _ hinv hnext
    cases a with
    | step c locks =>
        simp only [system, System.ofNext, next, Option.map_eq_some_iff] at hnext
        obtain ⟨⟨op, m', r, pc'⟩, hstep, heq⟩ := hnext
        cases heq
        obtain ⟨p, hm⟩ := hinv.mem
        exact hinv.step (stepThread_ok hm hinv.hist (hinv.pcs c) (hinv.live c) hstep)
    | call c o =>
        simp only [system, System.ofNext, next] at hnext
        split at hnext
        · cases hnext
          exact hinv.call
        · cases hnext

/-- In every run, in either build, the keys increase from the root to the end node. An operation that
returns true has changed the keys in one step, by adding or deleting its own; one that returns false has
changed nothing, and during the call there was a moment at which its key was there (for `insert`) or was
not there (for `remove`). -/
theorem list_linearizable {recorded : Bool} {h : List (Event K V)} {st : State K V ι}
    (hexec : Exec (system recorded) h st) :
    (∃ ns e, st.memory.Path ns e ∧ (ns.map fun a => (st.memory.nodes a).key).Pairwise (· < ·)) ∧
      ∀ op o, .call op o ∈ h →
        (.ret op true ∈ h → Changed h op o) ∧
        (.ret op false ∈ h → NoChange h op ∧
          ∃ m m', [.call op o, .step op m m', .ret op false].Sublist h ∧ o.Refused m'.content) := by
  have hinv := exec_inv hexec
  obtain ⟨p, hm⟩ := hinv.mem
  refine ⟨?_, fun op o hcall => ⟨fun hret => ?_, fun hret => ?_⟩⟩
  · obtain ⟨ns, e, hpath, hsorted, -⟩ := hm.sorted
    exact ⟨ns, e, hpath, hsorted⟩
  · obtain ⟨o', ho', hch⟩ := hinv.hist.ret_true op hret
    rwa [hinv.hist.call_unique op o o' hcall ho']
  · obtain ⟨o', hrun, hseen⟩ := hinv.hist.ret_false op hret
    rw [hinv.hist.call_unique op o o' hcall hrun.1]
    exact ⟨hrun.2, hseen⟩

/-- A run of the `Recorded_Once` build on the list 5, 7: an `insert` of 6 has found its place when 5 is
removed and 7 is replaced by a copy, so it has to search again. -/
theorem list_linearizable_run :
    ∃ (h : List (Event Nat Unit)) (st : State Nat Unit Bool), Exec (system true) h st ∧
      (.call 3 (.remove 5) ∈ h ∧ .ret 3 true ∈ h ∧ Changed h 3 (.remove 5)) ∧
      .call 2 (.insert 6 ()) ∈ h ∧ .ret 2 true ∈ h ∧ Changed h 2 (.insert 6 ()) := by
  have hrun : (run (next true)
      (List.flatten [[.call false (.insert 5 ())], List.replicate 3 (.step false fun _ => true),
        [.call false (.insert 7 ())], List.replicate 4 (.step false fun _ => true),
        [.call true (.insert 6 ())], List.replicate 3 (.step true fun _ => true), [.call false (.remove 5)],
        List.replicate 3 (.step false fun _ => true), List.replicate 4 (.step true fun _ => true)])
      (⟨⟨fun a => ⟨0, (), if a = 1 then 2 else 0, a == 2, false⟩, 3⟩, fun _ => .idle, 0⟩ :
        State Nat Unit Bool)).any (fun r => r.1.any (Event.isCall 3 (.remove 5)) &&
          r.1.any (Event.isRet 3 true) && r.1.any (Event.isCall 2 (.insert 6 ())) &&
          r.1.any (Event.isRet 2 true)) = true := by
    decide +kernel
  obtain ⟨⟨h, st⟩, hsome, hfacts⟩ := (Option.any_eq_true _ _).mp hrun
  simp only [Bool.and_eq_true, List.any_eq_true] at hfacts
  obtain ⟨⟨⟨⟨e₁, h₁, k₁⟩, ⟨e₂, h₂, k₂⟩⟩, ⟨e₃, h₃, k₃⟩⟩, ⟨e₄, h₄, k₄⟩⟩ := hfacts
  obtain rfl := Event.eq_of_isCall k₁
  obtain rfl := Event.eq_of_isRet k₂
  obtain rfl := Event.eq_of_isCall k₃
  obtain rfl := Event.eq_of_isRet k₄
  have hexec : Exec (system true) h st :=
    exec_of_run _ ⟨⟨by decide, by decide, rfl⟩, fun _ => rfl, rfl⟩ hsome
  have hall := (list_linearizable hexec).2
  exact ⟨h, st, hexec, ⟨h₁, h₂, (hall 3 _ h₁).1 h₂⟩, h₃, h₄, (hall 2 _ h₃).1 h₄⟩

end Verlib.SortedList
