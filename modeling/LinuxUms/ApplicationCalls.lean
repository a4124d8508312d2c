import LinuxUms.Application

/-! Inside an ioctl of the programs: each step of the device keeps what the calling thread knows
at its statement. -/
namespace LinuxUms

open KernelList Handoff

theorem Device.returned_ret (d : Device) (t : Pid) (c : Call Pid) (r : Result) :
    (d.ret t c r).returned t = some r := by
  simp [Device.returned, Device.ret, Device.log, Device.setPc]

theorem Device.returned_busy {d : Device} {t : Pid} (h : d.pc t ≠ .user) : d.returned t = none :=
  if_neg h

@[simp]
theorem Device.setPc_self (d : Device) (t : Pid) (c : Pc) : (d.setPc t c).pc t = c := by
  simp [Device.setPc]

@[simp]
theorem Device.ret_self (d : Device) (t : Pid) (c : Call Pid) (r : Result) :
    (d.ret t c r).pc t = .user := by
  simp [Device.ret]

section Kernel

variable {P : Program} {s s' : App} {q : Pid → Option (List ℕ)} {t : Pid} {d : Device}

theorem App.enter_ret (s : App) (t : Pid) (d : Device) (c : Call Pid) (r : Result) :
    s.enter P t (d.ret t c r) = (s.setDev (d.ret t c r)).resume P t r (s.code t) := by
  rw [App.enter, Device.returned_ret]

theorem App.enter_busy (s : App) (h : d.pc t ≠ .user) : s.enter P t d = s.setDev d := by
  rw [App.enter, Device.returned_busy h]

@[simp]
theorem App.setDev_dev (s : App) (d : Device) : (s.setDev d).dev = d := rfl

@[simp]
theorem App.setDev_code (s : App) (d : Device) : (s.setDev d).code = s.code := rfl

/-- A move of the device that only changes where thread `t` is, as far as `t` can see. -/
theorem view_move {c : Pc} (hpc : d.pc t = c) (hb : d.batches t = s.dev.batches t)
    (hr : d.ready t = s.dev.ready t)
    (hsch : (d.scheduler t).isSome = (s.dev.scheduler t).isSome)
    (hw : (d.worker t).map Worker.complist = (s.dev.worker t).map Worker.complist)
    (hh : Device.SameFor s.dev.hist d.hist t) :
    (s.setDev d).view q t = { s.view q t with pc := c } := by
  apply View.ext
  · exact hpc
  · exact hb
  · exact hr
  · exact hsch
  · exact hw
  any_goals rfl
  · exact congrArg List.length hh.1
  · exact hh.2

theorem view_setPc (c : Pc) :
    (s.setDev (s.dev.setPc t c)).view q t = { s.view q t with pc := c } :=
  view_move (Device.setPc_self s.dev t c) rfl rfl rfl rfl ⟨rfl, rfl⟩

/-- The end of a call that delivers no event. -/
theorem view_ret {c : Call Pid} {r : Result} (h : c ≠ .dqevent ∨ r ≠ .ok) :
    (s.setDev (s.dev.ret t c r)).view q t = { s.view q t with pc := .user } :=
  view_move (Device.ret_self s.dev t c r) rfl rfl rfl rfl
    ⟨rfl, Device.deliveries_ret h t t s.dev.hist⟩

theorem view_switching (k : Switching) (op : SwitchOp) (ops : List SwitchOp) :
    (s.setDev (s.dev.stepSwitch t k op ops)).view q t =
      { s.view q t with pc := if ops = [] then k.after else .switching k ops } := by
  have hb := Device.beside_switchOp s.dev (k.contexts t).1 (k.contexts t).2 op
  refine view_move ?_ (congrFun hb.batches t) (congrFun hb.ready t) (hb.scheduler t)
    (hb.complist t) ?_
  · exact Function.update_self t _ _
  · show Device.SameFor s.dev.hist (if op = .wakeUp then _ else _) t
    rw [hb.hist]
    split
    · exact Device.sameFor_wakes k t t s.dev.hist
    · exact ⟨rfl, rfl⟩

/-- Thread `t` goes on to the statement `c`. -/
theorem goto_code (s : App) (t : Pid) (c : Stmt) : (s.goto t c).code t = c := by
  simp [App.goto]

/-- No node changes hands. -/
theorem view_goto (s : App) {c : Stmt} (hc : c.node = (s.code t).node) :
    (s.goto t c).view q t = s.view q t := by
  apply View.ext
  any_goals rfl
  show ((s.goto t c).code t).node.bind s.nodes = (s.code t).node.bind s.nodes
  rw [goto_code, hc]

/-- What a scheduler thread must find when the kernel has gone on to `d`. -/
def SchedNext (P : Program) (s : App) (q : Pid → Option (List ℕ)) (t : Pid) (d : Device) : Prop :=
  (((s.copyToUser t).enter P t d).view q t).complist = none ∧
    SchedAt P (((s.copyToUser t).enter P t d).view q t) (((s.copyToUser t).enter P t d).code t)

/-- The places of an ioctl at which something is copied to the caller. -/
def Pc.copies : Pc → Bool
  | .dqTest _ | .nextContext _ | .evTest => true
  | _ => false

theorem copyToUser_at {c : Pc} (hpc : s.dev.pc t = c) (hc : c.copies = false) :
    s.copyToUser t = s := by
  unfold App.copyToUser
  split
  any_goals
    rename_i h
    rw [← hpc, h] at hc
    cases hc
  rfl

/-- The thread goes on inside its ioctl. -/
theorem schedNext_stay (hcopy : s.copyToUser t = s) {c : Pc} (hc : c ≠ .user)
    (hv : (s.setDev d).view q t = { s.view q t with pc := c })
    (hw : (s.view q t).complist = none) (h : SchedAt P { s.view q t with pc := c } (s.code t)) :
    SchedNext P s q t d := by
  have hpc : d.pc t = c := congrArg View.pc hv
  rw [SchedNext, hcopy, App.enter_busy s (by rw [hpc]; exact hc), hv]
  exact ⟨hw, h⟩

/-- The ioctl returns, and the thread goes on to the statement `c`. -/
theorem schedNext_goto (hcopy : s.copyToUser t = s) {k : Call Pid} {r : Result} {c : Stmt}
    (hk : k ≠ .dqevent ∨ r ≠ .ok)
    (hres : ∀ s' : App, s'.resume P t r (s.code t) = s'.goto t c)
    (hnode : c.node = (s.code t).node)
    (hw : (s.view q t).complist = none) (h : SchedAt P { s.view q t with pc := .user } c) :
    SchedNext P s q t (s.dev.ret t k r) := by
  have hv := view_goto (s.setDev (s.dev.ret t k r)) (q := q) hnode
  rw [SchedNext, hcopy, App.enter_ret, hres, hv, view_ret hk, goto_code]
  exact ⟨hw, h⟩

/-- `enter_ums_mode(&enter_args)` of a scheduler. -/
theorem kernel_enterSchedulingMode (hcode : s.code t = .enterSchedulingMode)
    (hw : (s.view q t).complist = none) (h : SchedAt P (s.view q t) .enterSchedulingMode)
    (hm : s.dev.Move t (s.dev.pc t) d) (hpc : s.dev.pc t ≠ .user) : SchedNext P s q t d := by
  obtain ⟨hidle, hex, hdel, hat⟩ := h
  obtain ⟨hat, hreg, hrq⟩ := hat.resolve_left (fun h => hpc h.1)
  have hcopy : s.copyToUser t = s := by
    rcases hat with h | h | h <;> exact copyToUser_at h rfl
  rcases hat with hat | hat | hat
  · rw [show s.dev.pc t = .schedAttach P.compList from hat] at hm
    cases hm with
    | schedAttach _ c hc =>
      apply schedNext_stay hcopy (c := .startup) (by simp) _ hw
      · rw [hcode]
        exact ⟨hidle, hex, hdel, Or.inr ⟨Or.inr (Or.inl rfl), hreg, hrq⟩⟩
      · exact view_move (Device.setPc_self _ t _) rfl rfl
          (Device.isSome_setScheduler (by rw [hc]; rfl) _ t) rfl ⟨rfl, rfl⟩
  · rw [show s.dev.pc t = .startup from hat] at hm
    cases hm with
    | startup c hc =>
      apply schedNext_stay hcopy (c := .startReturn) (by simp) _ hw
      · rw [hcode]
        exact ⟨hidle, hex, hdel, Or.inr ⟨Or.inr (Or.inr rfl), hreg, hrq⟩⟩
      · exact view_move (Device.setPc_self _ t _) rfl rfl
          (Device.isSome_setScheduler (by rw [hc]; rfl) _ t) rfl ⟨rfl, rfl⟩
  · rw [show s.dev.pc t = .startReturn from hat] at hm
    cases hm with
    | startReturn =>
      apply schedNext_goto hcopy (c := .dequeueEvent) (Or.inl (by simp)) _ (by rw [hcode]; rfl) hw
      · refine ⟨hidle, ⟨hreg, hex.trans hdel.symm⟩, ?_, Or.inl rfl⟩
        rw [show (s.view q t).deliveries = 0 from hdel, eq_self, and_true]
        exact hrq
      · intro s'
        rw [hcode]
        rfl

/-- The ioctl was interrupted, and the thread is where it was before it. -/
theorem schedNext_again (hcopy : s.copyToUser t = s) {k : Call Pid} {r : Result}
    (hk : k ≠ .dqevent ∨ r ≠ .ok) (hres : ∀ s' : App, s'.resume P t r (s.code t) = s')
    (hw : (s.view q t).complist = none)
    (h : SchedAt P { s.view q t with pc := .user } (s.code t)) :
    SchedNext P s q t (s.dev.ret t k r) := by
  rw [SchedNext, hcopy, App.enter_ret, hres, view_ret hk]
  exact ⟨hw, h⟩

/-- `dequeue_ums_sched_event(&event)`. The event is there, so the thread never sleeps. -/
theorem kernel_dequeueEvent (hr : DeviceReachable s.dev) (hcode : s.code t = .dequeueEvent)
    (hw : (s.view q t).complist = none) (h : SchedAt P (s.view q t) .dequeueEvent)
    (hm : s.dev.Move t (s.dev.pc t) d) (hpc : s.dev.pc t ≠ .user) : SchedNext P s q t d := by
  obtain ⟨hidle, hserved, hrq, hat⟩ := h
  rcases hat.resolve_left hpc with hat | ⟨hat, hev⟩
  · replace hat : s.dev.pc t = .evTest := hat
    rw [hat] at hm
    cases hm with
    | evSleep c hc he =>
      obtain ⟨e, hq, -⟩ := Device.next_event hr hat hc hserved.2
      rw [hq] at he
      cases he
    | evTake c e rest hc he =>
      obtain ⟨e', hq, hfirst⟩ := Device.next_event hr hat hc hserved.2
      rw [he, List.cons.injEq] at hq
      obtain ⟨rfl, rfl⟩ := hq
      have hcopy : s.copyToUser t = { s with event := Function.update s.event t e } := by
        simp only [App.copyToUser, hat, Device.eventQ_of_scheduler hc, he]
      rw [SchedNext, hcopy, App.enter_busy _ (by simp)]
      refine ⟨hw, ?_⟩
      show SchedAt P _ (s.code t)
      rw [hcode]
      refine ⟨hidle, ⟨?_, hserved.2⟩, hrq, Or.inr (Or.inr ⟨Device.setPc_self _ t _, ?_⟩)⟩
      · exact (Device.isSome_setScheduler (by rw [hc]; rfl) _ t).trans hserved.1
      · show Function.update s.event t e t = _ ↔ _
        rw [Function.update_self]
        exact hfirst
  · replace hat : s.dev.pc t = .evReturn := hat
    rw [hat] at hm
    cases hm with
    | evReturn =>
      have hcopy : s.copyToUser t = s := copyToUser_at hat rfl
      -- one event more has been delivered
      have hdel : deliveries t (s.dev.ret t .dqevent .ok).hist = deliveries t s.dev.hist + 1 :=
        if_pos ⟨rfl, rfl, rfl⟩
      rw [SchedNext, hcopy, App.enter_ret, hcode]
      refine ⟨hw, ?_⟩
      show SchedAt P (((s.setDev _).goto t .schedEntryProc).view q t)
        (((s.setDev _).goto t .schedEntryProc).code t)
      rw [goto_code, view_goto _ (by show _ = (s.code t).node; rw [hcode]; rfl)]
      refine ⟨hidle, ⟨hserved.1, ?_⟩, ?_, Device.ret_self _ t _ _, ?_⟩
      · show (execsBy t s.dev.hist).length + 1 = deliveries t (s.dev.ret t .dqevent .ok).hist
        rw [hdel]
        exact congrArg (· + 1) hserved.2
      · show (s.view q t).rq = none ↔ _ ∧ deliveries t (s.dev.ret t .dqevent .ok).hist = 1
        rw [hdel, Nat.add_eq_right]
        exact hrq
      · show s.event t = _ ↔ deliveries t (s.dev.ret t .dqevent .ok).hist = 1
        rw [hdel, Nat.add_eq_right]
        exact hev

/-- `dequeue_ums_completion_list_items(comp_list, &context)`. -/
theorem kernel_dequeueItems (hcode : s.code t = .dequeueItems)
    (hw : (s.view q t).complist = none) (h : SchedAt P (s.view q t) .dequeueItems)
    (hm : s.dev.Move t (s.dev.pc t) d) (hpc : s.dev.pc t ≠ .user) : SchedNext P s q t d := by
  obtain ⟨hserving, hready, hrq, ⟨hat, hb⟩ | ⟨hat, hb⟩⟩ := h
  · rcases hat.resolve_left hpc with hat | hat
    · replace hat : s.dev.pc t = .dqTest P.compList := hat
      rw [hat] at hm
      cases hm with
      | dqSleep _ he =>
        have hcopy : s.copyToUser t = s := by
          rw [App.copyToUser, hat]
          exact if_pos he
        apply schedNext_stay hcopy (c := .dqWait P.compList) (by simp) _ hw
        · rw [hcode]
          exact ⟨hserving, hready, hrq, Or.inl ⟨Or.inr (Or.inr rfl), hb⟩⟩
        · exact view_move (Device.setPc_self _ t _) rfl rfl rfl rfl ⟨rfl, rfl⟩
      | dqTake _ c heap he htake =>
        have hcopy : s.copyToUser t = { s with args := Function.update s.args t c } := by
          rw [App.copyToUser, hat]
          simp only [he, htake, Bool.false_eq_true, if_false]
        rw [SchedNext, hcopy, App.enter_busy _ (by simp)]
        refine ⟨hw, ?_⟩
        show SchedAt P _ (s.code t)
        rw [hcode]
        refine ⟨hserving, hready, hrq, Or.inr ⟨Function.update_self t _ s.dev.pc, ?_⟩⟩
        show Function.update s.dev.batches t ([c] :: s.dev.batches t) t =
          [[Function.update s.args t c t]]
        rw [Function.update_self, Function.update_self, show s.dev.batches t = [] from hb]
    · replace hat : s.dev.pc t = .dqWait P.compList := hat
      have hcopy : s.copyToUser t = s := copyToUser_at hat rfl
      rw [hat] at hm
      cases hm with
      | dqInterrupted _ he ht =>
        apply schedNext_again hcopy (Or.inl (by simp)) _ hw
        · rw [hcode]
          exact ⟨hserving, hready, hrq, Or.inl ⟨Or.inl rfl, hb⟩⟩
        · intro s'
          rw [hcode]
          rfl
      | dqWoken _ he =>
        apply schedNext_stay hcopy (c := .dqTest P.compList) (by simp) _ hw
        · rw [hcode]
          exact ⟨hserving, hready, hrq, Or.inl ⟨Or.inr (Or.inl rfl), hb⟩⟩
        · exact view_move (Device.setPc_self _ t _) rfl rfl rfl rfl ⟨rfl, rfl⟩
  · replace hat : s.dev.pc t = .dqReturn := hat
    have hcopy : s.copyToUser t = s := copyToUser_at hat rfl
    rw [hat] at hm
    cases hm with
    | dqReturn =>
      rw [SchedNext, hcopy, App.enter_ret, hcode]
      refine ⟨hw, ?_⟩
      show SchedAt P (App.view (App.goto { s.setDev _ with
        context := Function.update s.context t (s.args t) } t .addNode) q t)
        ((App.goto { s.setDev _ with
          context := Function.update s.context t (s.args t) } t .addNode).code t)
      rw [goto_code, view_goto _ (by show _ = (s.code t).node; rw [hcode]; rfl)]
      refine ⟨?_, hready, Device.ret_self _ t _ _, [], ?_, hrq⟩
      · refine ⟨hserving.1, ?_⟩
        show _ = deliveries t (.ret t .dqcontext .ok :: s.dev.hist)
        rw [Device.deliveries_ret (Or.inl (by simp))]
        exact hserving.2
      · show s.dev.batches t = [[Function.update s.context t (s.args t) t]]
        rw [Function.update_self]
        exact hb

theorem handNext_single (c d : Pid) (b : List Pid) :
    handNext c d [c :: b] = [d :: c :: b] := by
  simp [handNext]

theorem closeBatch_single (c : Pid) (b : List Pid) : closeBatch c [c :: b] = (c :: b, []) := by
  simp [closeBatch]

theorem resume_nextItem (s : App) (t c : Pid) (hc : getNextUmsListItem 0 (s.args t) = c) :
    s.resume P t .ok .nextItem = App.goto { s with context := Function.update s.context t c } t
      (if 0 < c then .addNode else .firstEntry) := by
  subst hc
  rfl

/-- `get_next_ums_list_item(context)` returns, with `x` in its argument structure. -/
theorem schedNext_item (d : Device) (x c : Pid) (hcode : s.code t = .nextItem)
    (hcopy : s.copyToUser t = { s with args := Function.update s.args t x })
    (hc : getNextUmsListItem 0 x = c) (hsch : d.scheduler = s.dev.scheduler)
    (hwk : d.worker = s.dev.worker) (hh : d.hist = s.dev.hist)
    (hw : (s.view q t).complist = none)
    (h : SchedAt P { s.view q t with
        pc := .user, batches := d.batches t, ready := d.ready t, args := x, context := c }
      (if 0 < c then .addNode else .firstEntry)) :
    SchedNext P s q t (d.ret t .nextContext .ok) := by
  let s₁ : App := { s with
    dev := d.ret t .nextContext .ok
    args := Function.update s.args t x
    context := Function.update s.context t c }
  have hnext : ({ s with args := Function.update s.args t x } : App).enter P t
      (d.ret t .nextContext .ok) = s₁.goto t (if 0 < c then .addNode else .firstEntry) := by
    rw [App.enter_ret]
    show App.resume P _ t .ok (s.code t) = _
    have harg : getNextUmsListItem 0 (Function.update s.args t x t) = c := by
      rw [Function.update_self, hc]
    rw [hcode, resume_nextItem _ t c harg]
    rfl
  have hnode : (if 0 < c then Stmt.addNode else Stmt.firstEntry).node = (s₁.code t).node := by
    show _ = (s.code t).node
    rw [hcode, apply_ite Stmt.node]
    exact ite_self _
  have hview : s₁.view q t = { s.view q t with
      pc := .user, batches := d.batches t, ready := d.ready t, args := x, context := c } := by
    apply View.ext
    any_goals rfl
    · exact Device.ret_self d t _ _
    · exact congrArg (fun f => (f t).isSome) hsch
    · exact congrArg (fun f => (f t).map Worker.complist) hwk
    · exact Function.update_self t x s.args
    · exact Function.update_self t c s.context
    · show (execsBy t d.hist).length = _
      rw [hh]
      rfl
    · show deliveries t (.ret t .nextContext .ok :: d.hist) = _
      rw [Device.deliveries_ret (Or.inl (by simp)), hh]
      rfl
  rw [SchedNext, hcopy, hnext, view_goto s₁ hnode, goto_code, hview]
  exact ⟨hw, h⟩

/-- `get_next_ums_list_item(context)`: the next context is a worker's pid, and so positive. -/
theorem kernel_nextItem (hd : DeviceReachable d)
    (hpos : ∀ c, (s.dev.worker c).isSome → 0 < c) (hcode : s.code t = .nextItem)
    (hw : (s.view q t).complist = none) (h : SchedAt P (s.view q t) .nextItem)
    (hm : s.dev.Move t (s.dev.pc t) d) (hpc : s.dev.pc t ≠ .user) : SchedNext P s q t d := by
  obtain ⟨hserving, hready, hat, b, hb, hrq⟩ := h
  replace hat : s.dev.pc t = .nextContext (s.context t) := hat.resolve_left hpc
  replace hb : s.dev.batches t = [s.context t :: b] := hb
  replace hrq : (s.view q t).rq = some ((s.context t :: b).reverse.map some) := hrq
  rw [hat] at hm
  generalize s.context t = c at hm hb hrq hat
  cases hm with
  | next _ e heap hnext =>
    have hnew : Function.update s.dev.batches t (handNext c e (s.dev.batches t)) t =
        [e :: c :: b] := by
      rw [Function.update_self, hb, handNext_single]
    -- `e` is in the batch of `t` now
    have he : 0 < e := by
      apply hpos
      refine Device.worker_of_handed (t := t) hd (Or.inr ?_)
      show e ∈ (Function.update s.dev.batches t _ t).flatten
      rw [hnew]
      simp
    have hitem : getNextUmsListItem 0 e = e := by
      have hne : e ≠ -1 := by
        rintro rfl
        exact absurd he (by decide)
      simp [getNextUmsListItem, hne]
    refine schedNext_item _ e e hcode ?_ hitem ?_ ?_ ?_ hw ?_
    · rw [App.copyToUser, hat]
      simp only [hnext]
    any_goals rfl
    · rw [if_pos he]
      exact ⟨hserving, hready, rfl, c :: b, hnew, hrq⟩
  | close _ heap hnext =>
    have hclose : closeBatch c (s.dev.batches t) = (c :: b, []) := by
      rw [hb, closeBatch_single]
    refine schedNext_item _ (-1) 0 hcode ?_ ?_ ?_ ?_ ?_ hw ?_
    · rw [App.copyToUser, hat]
      simp only [hnext]
    any_goals rfl
    · rw [if_neg (by decide)]
      refine ⟨⟨?_, ?_⟩, hserving, rfl, ?_⟩
      · show Function.update s.dev.batches t _ t = []
        rw [Function.update_self, hclose]
      · show List.Perm (List.map some (Function.update s.dev.ready t _ t)) ((s.view q t).rq.getD [])
        rw [Function.update_self, hclose, show s.dev.ready t = [] from hready, hrq]
        exact ((List.reverse_perm (c :: b)).symm).map some
      · rw [show (s.view q t).rq = _ from hrq]
        have hne : (c :: b).reverse.map some ≠ [] := by simp
        obtain ⟨x, xs, hx⟩ := List.exists_cons_of_ne_nil hne
        exact ⟨x, xs, congrArg some hx⟩

/-- `execute_ums_thread(node->context)`. -/
theorem kernel_execute (n : ℕ) (hcode : s.code t = .execute n)
    (hw : (s.view q t).complist = none) (h : SchedAt P (s.view q t) (.execute n))
    (hm : s.dev.Move t (s.dev.pc t) d) (hpc : s.dev.pc t ≠ .user) : SchedNext P s q t d := by
  obtain ⟨hrq, hdel, w, hnode, hat⟩ := h
  obtain ⟨hserved, hidle, hat⟩ := hat.resolve_left (fun h => hpc h.2.1)
  have hcopy : s.copyToUser t = s := by
    rcases hat with ⟨ops, h⟩ | h | h <;> exact copyToUser_at h rfl
  -- inside the call, and after it
  have hin {c : Pc} (hc : (∃ ops, c = .switching (.exec w) ops) ∨ c = .schedule (.exec w) ∨
      c = .blocked (.exec w)) : SchedAt P { s.view q t with pc := c } (s.code t) := by
    rw [hcode]
    exact ⟨hrq, hdel, w, hnode, Or.inr ⟨hserved, hidle, hc⟩⟩
  have hret : SchedNext P s q t (s.dev.ret t (.exec w) .ok) := by
    apply schedNext_goto hcopy (c := .freeNode n) (Or.inl (by simp)) _ (by rw [hcode]; rfl) hw
    · refine ⟨hidle, hserved, hrq, hdel, rfl, ?_⟩
      rw [show (s.view q t).node = some w from hnode]
      simp
    · intro s'
      rw [hcode]
      rfl
  rcases hat with ⟨ops, hat⟩ | hat | hat
  · rw [show s.dev.pc t = .switching (.exec w) ops from hat] at hm
    cases hm with
    | switching _ op ops =>
      apply schedNext_stay hcopy _ (view_switching (.exec w) op ops) hw
      · split
        · exact hin (Or.inr (Or.inl rfl))
        · exact hin (Or.inl ⟨ops, rfl⟩)
      · split <;> simp [Switching.after]
  · rw [show s.dev.pc t = .schedule (.exec w) from hat] at hm
    cases hm with
    | sleep _ ht =>
      exact schedNext_stay hcopy (by simp) (view_setPc _) hw (hin (Or.inr (Or.inr rfl)))
    | awake _ ht => exact hret
  · rw [show s.dev.pc t = .blocked (.exec w) from hat] at hm
    cases hm with
    | wake _ ht => exact hret

/-- What a worker thread must find when the kernel has gone on to `d`. -/
def WorkNext (P : Program) (s : App) (q : Pid → Option (List ℕ)) (t : Pid) (d : Device) : Prop :=
  (((s.copyToUser t).enter P t d).view q t).NoScheduler ∧
    WorkAt P (((s.copyToUser t).enter P t d).view q t) (((s.copyToUser t).enter P t d).code t)

theorem workNext_stay (hcopy : s.copyToUser t = s) {v : View} (hv : (s.setDev d).view q t = v)
    (hc : v.pc ≠ .user) (hn : v.NoScheduler) (h : WorkAt P v (s.code t)) : WorkNext P s q t d := by
  have hpc : d.pc t = v.pc := congrArg View.pc hv
  rw [WorkNext, hcopy, App.enter_busy s (by rw [hpc]; exact hc), hv]
  exact ⟨hn, h⟩

theorem workNext_goto (hcopy : s.copyToUser t = s) {d₀ : Device} {k : Call Pid} {r : Result}
    {c : Stmt} {v : View} (hv : (s.setDev (d₀.ret t k r)).view q t = v)
    (hres : ∀ s' : App, s'.resume P t r (s.code t) = s'.goto t c)
    (hnode : c.node = (s.code t).node) (hn : v.NoScheduler) (h : WorkAt P v c) :
    WorkNext P s q t (d₀.ret t k r) := by
  have hgo := view_goto (s.setDev (d₀.ret t k r)) (q := q) hnode
  rw [WorkNext, hcopy, App.enter_ret, hres, hgo, hv, goto_code]
  exact ⟨hn, h⟩

theorem copies_of_inEnter {l : ListId} {c : Pc} (h : c.inEnter l = true) : c.copies = false := by
  cases c with
  | dqTest | nextContext | evTest => cases h
  | _ => rfl

theorem copies_of_inYield {c : Pc} (h : c.inYield = true) : c.copies = false := by
  cases c with
  | dqTest | nextContext | evTest => cases h
  | _ => rfl

theorem copies_of_inExit {c : Pc} (h : c.inExit = true) : c.copies = false := by
  cases c with
  | dqTest | nextContext | evTest => cases h
  | _ => rfl

/-- The stores of a switch end where the call goes on in the kernel. -/
theorem switching_busy (k : Switching) (ops : List SwitchOp) :
    (if ops = [] then k.after else .switching k ops) ≠ .user := by
  split
  · cases k <;> simp [Switching.after]
  · simp

/-- A worker that has been resumed is in its function. -/
theorem workAt_func {v : View} (hl : v.complist = some (some P.compList)) (k : ℕ) :
    WorkAt P { v with pc := .user } (.func k) := by
  cases k with
  | zero => exact ⟨hl, rfl⟩
  | succ k => exact ⟨hl, rfl⟩

/-- `enter_ums_mode(&ums_args)` of a worker. -/
theorem kernel_enterWorker (hcode : s.code t = .enterWorker) (hn : (s.view q t).NoScheduler)
    (h : WorkAt P (s.view q t) .enterWorker) (hm : s.dev.Move t (s.dev.pc t) d)
    (hpc : s.dev.pc t ≠ .user) : WorkNext P s q t d := by
  rcases h with ⟨hat, -⟩ | ⟨hat, hl⟩ | ⟨hl, hat⟩
  · exact absurd hat hpc
  · have hcopy := copyToUser_at hat rfl
    rw [show s.dev.pc t = .enterAttach P.compList from hat] at hm
    cases hm with
    | enterAttach _ w hw =>
      refine workNext_stay hcopy (v := { s.view q t with
        pc := .switching (.enter P.compList) prepareSuspendContext
        complist := some (some P.compList) }) ?_ (by simp) hn ?_
      · apply View.ext
        any_goals rfl
        · exact Device.setPc_self _ t _
        · show (Function.update s.dev.worker t _ t).map Worker.complist = _
          rw [Function.update_self]
          rfl
      · rw [hcode]
        exact Or.inr (Or.inr ⟨rfl, by simp [Pc.inEnter]⟩)
  · have hcopy := copyToUser_at rfl (copies_of_inEnter hat)
    have hin {c : Pc} (hc : c.inEnter P.compList = true) :
        WorkAt P { s.view q t with pc := c } (s.code t) := by
      rw [hcode]
      exact Or.inr (Or.inr ⟨hl, hc⟩)
    have hret : WorkNext P s q t (s.dev.ret t .enterWorker .ok) := by
      refine workNext_goto (c := .func (P.yields t)) hcopy (view_ret (Or.inl (by simp))) ?_
        (by rw [hcode]; rfl) hn (workAt_func hl _)
      intro s'
      rw [hcode]
      rfl
    replace hat : (s.dev.pc t).inEnter P.compList = true := hat
    generalize s.dev.pc t = c at hm hat
    cases hm with
    | switching k op ops =>
      cases k with
      | enter l =>
        obtain rfl : l = P.compList := by simpa [Pc.inEnter] using hat
        apply workNext_stay hcopy (view_switching _ op ops) (switching_busy _ ops) hn
        split <;> exact hin (by simp [Switching.after, Pc.inEnter])
      | exec | yield | exit => cases hat
    | enterAdd l heap hadd =>
      exact workNext_stay hcopy (view_move (Device.setPc_self _ t _) rfl rfl rfl rfl ⟨rfl, rfl⟩)
        (by simp) hn (hin rfl)
    | sleep k ht =>
      cases k with
      | enterWorker => exact workNext_stay hcopy (view_setPc _) (by simp) hn (hin rfl)
      | _ => cases hat
    | awake k ht | wake k ht =>
      cases k with
      | enterWorker => exact hret
      | _ => cases hat
    | _ => cases hat

/-- `ums_thread_yield(scheduler_param)`. -/
theorem kernel_yield (k : ℕ) (hcode : s.code t = .func (k + 1)) (hn : (s.view q t).NoScheduler)
    (h : WorkAt P (s.view q t) (.func (k + 1))) (hm : s.dev.Move t (s.dev.pc t) d) :
    WorkNext P s q t d := by
  obtain ⟨hl, hat⟩ := h
  have hcopy := copyToUser_at rfl (copies_of_inYield hat)
  have hin {c : Pc} (hc : c.inYield = true) : WorkAt P { s.view q t with pc := c } (s.code t) := by
    rw [hcode]
    exact ⟨hl, hc⟩
  have hret : WorkNext P s q t (s.dev.ret t .yield .ok) := by
    refine workNext_goto (c := .func k) hcopy (view_ret (Or.inl (by simp))) ?_
      (by rw [hcode]; rfl) hn (workAt_func hl k)
    intro s'
    rw [hcode]
    rfl
  replace hat : (s.dev.pc t).inYield = true := hat
  generalize s.dev.pc t = c at hm hat
  cases hm with
  | yieldParent a w p hw hp => exact workNext_stay hcopy (view_setPc _) (by simp) hn (hin rfl)
  | yieldPost p a x hx =>
    exact workNext_stay hcopy (view_move (Device.setPc_self _ t _) rfl rfl
      (Device.isSome_setScheduler (by rw [hx]; rfl) _ t) rfl ⟨rfl, rfl⟩) (by simp) hn (hin rfl)
  | switching k op ops =>
    cases k with
    | yield p =>
      apply workNext_stay hcopy (view_switching _ op ops) (switching_busy _ ops) hn
      split <;> exact hin rfl
    | enter | exec | exit => cases hat
  | yieldAdd x l heap hw hadd =>
    exact workNext_stay hcopy (view_move (Device.setPc_self _ t _) rfl rfl rfl rfl ⟨rfl, rfl⟩)
      (by simp) hn (hin rfl)
  | sleep k ht =>
    cases k with
    | yield => exact workNext_stay hcopy (view_setPc _) (by simp) hn (hin rfl)
    | _ => cases hat
  | awake k ht | wake k ht =>
    cases k with
    | yield => exact hret
    | _ => cases hat
  | _ => cases hat

/-- `exit_ums_mode()`, from the destructor of the worker key. -/
theorem kernel_exit (hr : DeviceReachable s.dev) (hcode : s.code t = .func 0)
    (hn : (s.view q t).NoScheduler) (h : WorkAt P (s.view q t) (.func 0))
    (hm : s.dev.Move t (s.dev.pc t) d) : WorkNext P s q t d := by
  obtain ⟨hl, hat⟩ := h
  have hcopy := copyToUser_at rfl (copies_of_inExit hat)
  have hin {c : Pc} (hc : c.inExit = true) : WorkAt P { s.view q t with pc := c } (s.code t) := by
    rw [hcode]
    exact ⟨hl, hc⟩
  replace hat : (s.dev.pc t).inExit = true := hat
  generalize hpc : s.dev.pc t = c at hm hat
  cases hm with
  | exitParent w p hw hp => exact workNext_stay hcopy (view_setPc _) (by simp) hn (hin rfl)
  | exitOrphan w hw hp => exact absurd hp (Device.parent_of_exit hr hpc hw)
  | exitPost p x hx =>
    exact workNext_stay hcopy (view_move (Device.setPc_self _ t _) rfl rfl
      (Device.isSome_setScheduler (by rw [hx]; rfl) _ t) rfl ⟨rfl, rfl⟩) (by simp) hn (hin rfl)
  | switching k op ops =>
    cases k with
    | exit p =>
      apply workNext_stay hcopy (view_switching _ op ops) (switching_busy _ ops) hn
      split <;> exact hin rfl
    | enter | exec | yield => cases hat
  | destroy =>
    refine workNext_goto (c := .done) (v := { s.view q t with pc := .user, complist := none })
      hcopy ?_ ?_ (by rw [hcode]; rfl) hn ⟨rfl, rfl⟩
    · apply View.ext
      any_goals rfl
      · exact Device.ret_self _ t _ _
      · show (Function.update s.dev.worker t none t).map Worker.complist = none
        rw [Function.update_self]
        rfl
      · exact Device.deliveries_ret (Or.inl (by simp)) t t s.dev.hist
    · intro s'
      rw [hcode]
      rfl
  | sleep k | awake k | wake k => cases k <;> cases hat
  | _ => cases hat

theorem AppInv.on_of_code (hI : AppInv P s q) (hc : s.code t ≠ .done) :
    t ∈ P.schedulers ∨ t ∈ P.workers := by
  by_contra h
  rw [not_or] at h
  exact hc (hI.off t h.1 h.2)

theorem AppInv.sched (hI : AppInv P s q) (ht : t ∈ P.schedulers) :
    (s.view q t).complist = none ∧ SchedAt P (s.view q t) (s.code t) := by
  have h := hI.thread t
  rwa [ThreadOk, if_pos ht] at h

theorem AppInv.work (hI : AppInv P s q) (ht : t ∉ P.schedulers) :
    (s.view q t).NoScheduler ∧ WorkAt P (s.view q t) (s.code t) := by
  have h := hI.thread t
  rwa [ThreadOk, if_neg ht] at h

/-- Only the workers of the program are workers of the device. -/
theorem AppInv.worker_mem (hI : AppInv P s q) {w : Pid} (hw : (s.dev.worker w).isSome) :
    w ∈ P.workers := by
  obtain ⟨x, hx⟩ := Option.isSome_iff_exists.mp hw
  have hlist : (s.view q w).complist = some x.complist := congrArg (Option.map _) hx
  by_cases hs : w ∈ P.schedulers
  · rw [(hI.sched hs).1] at hlist
    cases hlist
  by_contra hno
  have hat := (hI.work hs).2
  rw [hI.off w hs hno] at hat
  rw [hat.2] at hlist
  cases hlist

/-- A thread of the program inside an ioctl. -/
theorem AppInv.busy (hI : AppInv P s q) (hpc : s.dev.pc t ≠ .user) :
    t ∈ P.schedulers ∨ t ∈ P.workers := by
  apply hI.on_of_code
  intro hcode
  by_cases ht : t ∈ P.schedulers
  · have h := (hI.sched ht).2
    rw [hcode] at h
    exact h
  · have h := (hI.work ht).2
    rw [hcode] at h
    exact hpc h.1

theorem threadOk_kernel (hI : AppInv P s q) (hd : DeviceReachable d)
    (hm : s.dev.Move t (s.dev.pc t) d) (hpc : s.dev.pc t ≠ .user) :
    ThreadOk P ((s.copyToUser t).enter P t d) q t := by
  have hpos (c : Pid) (hc : (s.dev.worker c).isSome) : 0 < c := P.positive c (hI.worker_mem hc)
  unfold ThreadOk
  by_cases ht : t ∈ P.schedulers
  · rw [if_pos ht]
    obtain ⟨hw, hat⟩ := hI.sched ht
    generalize hcode : s.code t = c at hat
    cases c with
    | enterSchedulingMode => exact kernel_enterSchedulingMode hcode hw hat hm hpc
    | dequeueEvent => exact kernel_dequeueEvent hI.dev hcode hw hat hm hpc
    | dequeueItems => exact kernel_dequeueItems hcode hw hat hm hpc
    | nextItem => exact kernel_nextItem hd hpos hcode hw hat hm hpc
    | execute n => exact kernel_execute n hcode hw hat hm hpc
    | schedEntryProc => exact absurd hat.2.2.2.1 hpc
    | addNode | firstEntry => exact absurd hat.2.2.1 hpc
    | freeNode n => exact absurd hat.2.2.2.2.1 hpc
    | enterWorker | func | done => exact hat.elim
  · rw [if_neg ht]
    obtain ⟨hn, hat⟩ := hI.work ht
    generalize hcode : s.code t = c at hat
    cases c with
    | enterWorker => exact kernel_enterWorker hcode hn hat hm hpc
    | func k =>
      cases k with
      | zero => exact kernel_exit hI.dev hcode hn hat hm
      | succ k => exact kernel_yield k hcode hn hat hm
    | done => exact absurd hat.1 hpc
    | _ => exact hat.elim

end Kernel

end LinuxUms
