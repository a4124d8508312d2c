import LinuxUms.ApplicationCalls

/-! Every statement of the programs keeps what their threads know, and so their runs are runs of
the device in which the documented protocol is kept. -/
namespace LinuxUms

open KernelList Handoff

namespace Device

variable {s : Device} {t : Pid}

theorem step_enterScheduler (l : ListId) (hpc : s.pc t = .user)
    (hn : (s.scheduler t).isSome = false) : s.step (.enterScheduler t l) =
      some ((s.setScheduler t ⟨⟨.running, .junk, 0⟩, none, []⟩).setPc t (.schedAttach l)) := by
  simp [step, call, DeviceAct.caller, hpc, hn]

theorem step_dqevent (hpc : s.pc t = .user) (hn : (s.scheduler t).isSome = true) :
    s.step (.dqevent t) = some (s.setPc t .evTest) := by
  simp [step, call, DeviceAct.caller, hpc, hn]

theorem step_dqcontext (l : ListId) (hpc : s.pc t = .user) (hn : (s.scheduler t).isSome = true) :
    s.step (.dqcontext t l) = some (s.setPc t (.dqTest l)) := by
  simp [step, call, DeviceAct.caller, hpc, hn]

theorem step_nextContext (c : Pid) (hpc : s.pc t = .user) (hn : (s.worker c).isSome = true) :
    s.step (.nextContext t c) = some (s.setPc t (.nextContext c)) := by
  simp [step, call, DeviceAct.caller, hpc, hn]

theorem step_exec (w : Pid) (hpc : s.pc t = .user) (hw : (s.worker w).isSome = true)
    (hn : (s.scheduler t).isSome = true) : s.step (.exec t w) =
      some (({ s with ready := Function.update s.ready t ((s.ready t).erase w) }.log
        (.exec t w)).setPc t (.switching (.exec w) prepareSwitchContext)) := by
  simp [step, call, DeviceAct.caller, hpc, hn, hw]

theorem step_enterWorker (l : ListId) (node : Links Node) (zero : Bool) (hpc : s.pc t = .user)
    (hn : s.worker t = none) : s.step (.enterWorker t l node zero) =
      some (({ s with heap := Function.update s.heap (.context t) node }.setWorker t
        (some ⟨⟨.running, if zero then .null else .junk, 0⟩, none⟩)).setPc t (.enterAttach l)) := by
  simp [step, call, DeviceAct.caller, hpc, hn]

theorem step_yield (args : UserPtr) (hpc : s.pc t = .user) (hn : (s.worker t).isSome = true) :
    s.step (.yield t args) = some (s.setPc t (.yieldParent args)) := by
  simp [step, call, DeviceAct.caller, hpc, hn]

theorem step_exit (hpc : s.pc t = .user) (hn : (s.worker t).isSome = true) :
    s.step (.exit t) = some (s.setPc t .exitParent) := by
  simp [step, call, DeviceAct.caller, hpc, hn]

end Device

section User

variable {P : Program} {s s' : App} {q : Pid → Option (List ℕ)} {t : Pid} {env : Env}

/-- An ioctl that the kernel takes up. -/
theorem ioctl_busy {a : DeviceAct} {d : Device} (hs : s.dev.step a = some d) (hd : d.pc t ≠ .user)
    (h : s.ioctl P t a = some s') : s' = s.setDev d := by
  rw [App.ioctl, hs, Option.map_some, App.enter_busy s hd] at h
  exact (Option.some.inj h).symm

theorem held_of_executes {c : Stmt} (v : View) (hc : c.executes = false) : v.held c = [] := by
  cases c with
  | execute n => cases hc
  | _ => rfl

/-- A call that is no execution. -/
theorem dispatched_call {d : Device} {c : Stmt} (hcode : s.code t = c) (hc : c.executes = false)
    (hb : d.batches t = s.dev.batches t) (hh : d.hist = s.dev.hist) (r : List Pid) :
    (s.setDev d).dispatched q t r = s.dispatched q t r := by
  have hpend : ((s.setDev d).view q t).pending c r = (s.view q t).pending c r := by
    rw [View.pending, View.pending, held_of_executes _ hc, held_of_executes _ hc,
      show ((s.setDev d).view q t).batches = (s.view q t).batches from hb]
    rfl
  rw [App.dispatched, App.dispatched, App.setDev_code, hcode, hpend,
    show (s.setDev d).dev.hist = s.dev.hist from hh]

theorem execsBy_exec (t w : Pid) (h : List (Obs Pid ListId Event)) :
    execsBy t (.exec t w :: h) = execsBy t h ++ [w] := by
  rw [execsBy, if_pos rfl]

/-- An execution: the worker in hand goes over to those that have been executed. -/
theorem dispatched_exec {d : Device} {n : ℕ} {w : Pid} (hcode : s.code t = .execute n)
    (hpc : s.dev.pc t = .user) (hb : s.dev.batches t = []) (hnode : (s.view q t).node = some w)
    (hdpc : d.pc t ≠ .user) (hdb : d.batches t = []) (hh : d.hist = .exec t w :: s.dev.hist)
    (r : List Pid) : (s.setDev d).dispatched q t r = s.dispatched q t r := by
  have hdb' : ((s.setDev d).view q t).batches = [] := hdb
  have hb' : (s.view q t).batches = [] := hb
  have hold : (s.view q t).held (.execute n) = [some w] := by
    rw [← hnode]
    exact if_pos hpc
  have hnew : ((s.setDev d).view q t).held (.execute n) = [] := if_neg hdpc
  have hdh : (s.setDev d).dev.hist = .exec t w :: s.dev.hist := hh
  rw [App.dispatched, App.dispatched, App.setDev_code, hcode, View.pending_idle hdb',
    View.pending_idle hb', hold, hnew, hdh, execsBy_exec, List.map_append, List.append_assoc]
  rfl

theorem fine_cons {o : Obs Pid ListId Event} {h : List (Obs Pid ListId Event)} (ho : Fine o)
    (hh : ∀ o ∈ h, Fine o) : ∀ o' ∈ o :: h, Fine o' := by
  intro o' ho'
  rcases List.mem_cons.mp ho' with rfl | hm
  · exact ho
  · exact hh o' hm

/-- The call of an ioctl that is within the protocol, by a thread that goes on inside it. -/
theorem AppInv.enters (hI : AppInv P s q) (hon : t ∈ P.schedulers ∨ t ∈ P.workers) {a : DeviceAct}
    {d : Device} (ha : a.caller = t) (hact : ∀ u, a ≠ .run u ∧ a ≠ .signal u)
    (hprot : Protocol s.dev a) (hs : s.dev.step a = some d) (hfine : ∀ o ∈ d.hist, Fine o)
    (hself : ThreadOk P (s.setDev d) q t) : AppStep P s q t (s.setDev d) q := by
  have hcalm : Calm s.dev a := by
    cases a with
    | signal u => exact absurd rfl (hact u).2
    | _ => trivial
  refine hI.keep hon ((App.Kept.refl s t).dev d) (.tail a hI.dev ⟨hprot, hcalm⟩ hs) ?_ hfine hself
  rw [← ha]
  exact Device.own_call (Device.step_call hact hs).2

/-- A call that executes nothing. -/
theorem AppInv.call (hI : AppInv P s q) (hon : t ∈ P.schedulers ∨ t ∈ P.workers) {a : DeviceAct}
    {d : Device} (ha : a.caller = t) (hact : ∀ u, a ≠ .run u ∧ a ≠ .signal u)
    (hprot : Protocol s.dev a) (hs : s.dev.step a = some d) {c : Stmt} (hcode : s.code t = c)
    (hc : c.executes = false) (hb : d.batches t = s.dev.batches t) (hh : d.hist = s.dev.hist)
    (hgo : Goes P c c (d.pc t)) (hself : ThreadOk P (s.setDev d) q t) :
    UserStep P s q t (s.setDev d) q := by
  have hfine : ∀ o ∈ d.hist, Fine o := by
    rw [hh]
    exact hI.fine
  refine ⟨hI.enters hon ha hact hprot hs hfine hself, dispatched_call hcode hc hb hh, ?_, ?_⟩
  · rw [App.setDev_code, hcode]
    exact hgo
  · rw [hcode, hc, show (s.setDev d).dev.hist = s.dev.hist from hh]
    rfl

theorem user_dequeueEvent (hI : AppInv P s q) (ht : t ∈ P.schedulers)
    (hcode : s.code t = .dequeueEvent) (hpc : s.dev.pc t = .user)
    (h : s.user P t env .dequeueEvent = some s') : UserStep P s q t s' q := by
  obtain ⟨hw, hat⟩ := hI.sched ht
  rw [hcode] at hat
  obtain ⟨hidle, hserved, hrq, -⟩ := hat
  have hs := Device.step_dqevent hpc hserved.1
  rw [ioctl_busy hs (by simp) h]
  refine hI.call (Or.inl ht) (a := .dqevent t) rfl (by simp) trivial hs hcode rfl rfl rfl ?_ ?_
  · rw [Device.setPc_self]
    exact .dequeueEvent
  rw [ThreadOk, if_pos ht, view_setPc, App.setDev_code, hcode]
  exact ⟨hw, hidle, hserved, hrq, Or.inr (Or.inl rfl)⟩

theorem user_dequeueItems (hI : AppInv P s q) (ht : t ∈ P.schedulers)
    (hcode : s.code t = .dequeueItems) (hpc : s.dev.pc t = .user)
    (h : s.user P t env .dequeueItems = some s') : UserStep P s q t s' q := by
  obtain ⟨hw, hat⟩ := hI.sched ht
  rw [hcode] at hat
  obtain ⟨hserving, hready, hrq, ⟨-, hb⟩ | ⟨hno, -⟩⟩ := hat
  · have hs := Device.step_dqcontext P.compList hpc hserving.1
    rw [ioctl_busy hs (by simp) h]
    refine hI.call (Or.inl ht) (a := .dqcontext t P.compList) rfl (by simp) trivial hs hcode rfl
      rfl rfl ?_ ?_
    · rw [Device.setPc_self]
      exact .dequeueItems
    rw [ThreadOk, if_pos ht, view_setPc, App.setDev_code, hcode]
    exact ⟨hw, hserving, hready, hrq, Or.inl ⟨Or.inr (Or.inl rfl), hb⟩⟩
  · cases hno.symm.trans hpc

theorem user_nextItem (hI : AppInv P s q) (ht : t ∈ P.schedulers)
    (hcode : s.code t = .nextItem) (hpc : s.dev.pc t = .user)
    (h : s.user P t env .nextItem = some s') : UserStep P s q t s' q := by
  obtain ⟨hw, hat⟩ := hI.sched ht
  rw [hcode] at hat
  obtain ⟨hserving, hready, -, b, hb, hrq⟩ := hat
  replace hb : s.dev.batches t = [s.context t :: b] := hb
  have hlive : (s.dev.worker (s.context t)).isSome = true := by
    apply Device.worker_of_handed (t := t) hI.dev
    rw [hb]
    simp
  have hs := Device.step_nextContext (s.context t) hpc hlive
  rw [ioctl_busy hs (by simp) h]
  have hprot : IsHandle (s.context t) (s.dev.batches t) := by
    rw [hb]
    simp [IsHandle]
  refine hI.call (Or.inl ht) (a := .nextContext t _) rfl (by simp) hprot hs hcode rfl rfl rfl ?_ ?_
  · rw [Device.setPc_self]
    exact .nextItem _
  rw [ThreadOk, if_pos ht, view_setPc, App.setDev_code, hcode]
  exact ⟨hw, hserving, hready, Or.inr rfl, b, hb, hrq⟩

theorem user_execute (hI : AppInv P s q) (ht : t ∈ P.schedulers) (n : ℕ)
    (hcode : s.code t = .execute n) (hpc : s.dev.pc t = .user)
    (h : s.user P t env (.execute n) = some s') : UserStep P s q t s' q := by
  obtain ⟨hw, hat⟩ := hI.sched ht
  rw [hcode] at hat
  obtain ⟨hrq, hdel, w, hnode, ⟨hserving, -, hb, hperm⟩ | ⟨-, -, hno⟩⟩ := hat
  · have hn : s.nodes n = some w := by
      have hnode' : (s.code t).node.bind s.nodes = some w := hnode
      rwa [hcode] at hnode'
    have hready : w ∈ s.dev.ready t := by
      have hmem : some w ∈ (s.dev.ready t).map some := hperm.mem_iff.mpr List.mem_cons_self
      simpa using hmem
    have hs := Device.step_exec w hpc (Device.worker_of_handed hI.dev (Or.inl hready)) hserving.1
    have h' : s.ioctl P t (.exec t w) = some s' := by
      rw [App.user, hn] at h
      exact h
    rw [ioctl_busy hs (by simp) h']
    refine ⟨hI.enters (Or.inl ht) (a := .exec t w) rfl (by simp) hready hs
      (fine_cons trivial hI.fine) ?_, ?_, ?_, ?_⟩
    rotate_left
    · exact dispatched_exec hcode hpc hb hnode (by simp) hb rfl
    · rw [App.setDev_code, hcode, App.setDev_dev, Device.setPc_self]
      exact .execute n w
    · rw [hcode]
      show (execsBy t (.exec t w :: s.dev.hist)).length = _
      rw [execsBy_exec, List.length_append]
      rfl
    rw [ThreadOk, if_pos ht, App.setDev_code, hcode]
    refine ⟨hw, hrq, hdel, w, hnode, Or.inr ⟨⟨hserving.1, ?_⟩, ⟨hb, ?_⟩,
      Or.inl ⟨prepareSwitchContext, ?_⟩⟩⟩
    · -- the execution answers the event
      show (execsBy t (.exec t w :: s.dev.hist)).length = _
      rw [execsBy_exec, List.length_append]
      exact hserving.2
    · show List.Perm (List.map some (Function.update s.dev.ready t ((s.dev.ready t).erase w) t)) _
      rw [Function.update_self]
      have he := hperm.erase (some w)
      rw [List.erase_cons_head] at he
      rwa [List.map_erase (fun _ _ => Option.some.inj)]
    · exact Device.setPc_self _ t _
  · rcases hno with ⟨_, hno⟩ | hno | hno <;> cases hno.symm.trans hpc

/-- A worker is in its function. -/
theorem worker_isSome {l : Option ListId} (h : (s.view q t).complist = some l) :
    (s.dev.worker t).isSome = true := by
  have h' : (s.dev.worker t).map Worker.complist = some l := h
  rw [← Option.isSome_map (f := Worker.complist), h']
  rfl

theorem user_enterWorker (hI : AppInv P s q) (ht : t ∉ P.schedulers)
    (hcode : s.code t = .enterWorker) (hpc : s.dev.pc t = .user)
    (h : s.user P t env .enterWorker = some s') : UserStep P s q t s' q := by
  obtain ⟨hn, hat⟩ := hI.work ht
  rw [hcode] at hat
  have hnone : s.dev.worker t = none := by
    rcases hat with ⟨-, hl⟩ | ⟨hno, -⟩ | ⟨-, hno⟩
    · exact Option.map_eq_none_iff.mp hl
    · cases hno.symm.trans hpc
    · rw [show (s.view q t).pc = _ from hpc] at hno
      cases hno
  have hs := Device.step_enterWorker P.compList env.node env.zero hpc hnone
  rw [ioctl_busy hs (by simp) h]
  have hon : t ∈ P.schedulers ∨ t ∈ P.workers := hI.on_of_code (by rw [hcode]; simp)
  refine hI.call hon (a := .enterWorker t _ _ _) rfl (by simp) trivial hs hcode rfl rfl rfl ?_ ?_
  · rw [Device.setPc_self]
    exact .enterWorker
  rw [ThreadOk, if_neg ht, App.setDev_code, hcode]
  refine ⟨hn, Or.inr (Or.inl ⟨Device.setPc_self _ t _, ?_⟩)⟩
  show (Function.update s.dev.worker t _ t).map Worker.complist = _
  rw [Function.update_self]
  rfl

theorem user_func (hI : AppInv P s q) (ht : t ∉ P.schedulers) (k : ℕ)
    (hcode : s.code t = .func k) (hpc : s.dev.pc t = .user)
    (h : s.user P t env (.func k) = some s') : UserStep P s q t s' q := by
  obtain ⟨hn, hat⟩ := hI.work ht
  rw [hcode] at hat
  have hon : t ∈ P.schedulers ∨ t ∈ P.workers := hI.on_of_code (by rw [hcode]; simp)
  cases k with
  | zero =>
    have hs := Device.step_exit hpc (worker_isSome hat.1)
    rw [ioctl_busy hs (by simp) h]
    refine hI.call hon (a := .exit t) rfl (by simp) trivial hs hcode rfl rfl rfl ?_ ?_
    · rw [Device.setPc_self]
      exact .exit
    rw [ThreadOk, if_neg ht, view_setPc, App.setDev_code, hcode]
    exact ⟨hn, hat.1, rfl⟩
  | succ k =>
    have hs := Device.step_yield env.param hpc (worker_isSome hat.1)
    rw [ioctl_busy hs (by simp) h]
    refine hI.call hon (a := .yield t _) rfl (by simp) trivial hs hcode rfl rfl rfl ?_ ?_
    · rw [Device.setPc_self]
      exact .yield k _
    rw [ThreadOk, if_neg ht, view_setPc, App.setDev_code, hcode]
    exact ⟨hn, hat.1, rfl⟩

theorem rqRings_update (q : Pid → Option (List ℕ)) (t : Pid) (ns : List ℕ) :
    rqRings (Function.update q t (some ns)) =
      Function.update (rqRings q) (.head t) (some (ns.map .node)) := by
  funext x
  cases x with
  | head u =>
    by_cases hu : u = t
    · subst hu
      rw [Function.update_self, rqRings, Function.update_self]
      rfl
    · have hne : RqNode.head u ≠ .head t := fun h => hu (RqNode.head.inj h)
      rw [Function.update_of_ne hne, rqRings, rqRings, Function.update_of_ne hu]
  | node n =>
    rw [Function.update_of_ne (by simp)]
    rfl

/-- The queue of `t` now has the nodes `ns`, and `t` may have taken one. -/
theorem rqOk_update (h : RqOk s q) {ns : List ℕ}
    (hrings : RingFamily s'.rq (Function.update (rqRings q) (.head t) (some (ns.map .node)))
      (fun _ => none))
    (hcode : ∀ u, u ≠ t → s'.code u = s.code u) (hnext : s.next ≤ s'.next)
    (hns : ∀ n ∈ ns, n < s'.next ∧ ∀ u, u ≠ t → (s.code u).node ≠ some n)
    (hown : ∀ n, (s'.code t).node = some n → n < s'.next ∧ n ∉ ns ∧
      ∀ u, u ≠ t → (s.code u).node ≠ some n ∧ ∀ m, q u = some m → n ∉ m)
    (hall : ∀ n, s'.nodes n ≠ none → n ∈ ns ∨ (s'.code t).node = some n ∨
      (s.nodes n ≠ none ∧ (∀ m, q t = some m → n ∉ m) ∧ (s.code t).node ≠ some n)) :
    RqOk s' (Function.update q t (some ns)) := by
  constructor
  · rw [rqRings_update]
    exact hrings
  · intro u m n hm hn
    rcases update_some_cases hm with ⟨-, rfl⟩ | ⟨-, hm⟩
    · exact (hns n hn).1
    · exact Nat.lt_of_lt_of_le (h.bound u m n hm hn) hnext
  · intro u n hn
    by_cases hu : u = t
    · subst hu
      obtain ⟨hlt, hmem, hother⟩ := hown n hn
      refine ⟨hlt, fun v m hm => ?_⟩
      rcases update_some_cases hm with ⟨-, rfl⟩ | ⟨hv, hm⟩
      · exact hmem
      · exact (hother v hv).2 m hm
    · rw [hcode u hu] at hn
      obtain ⟨hlt, hmem⟩ := h.held u n hn
      refine ⟨Nat.lt_of_lt_of_le hlt hnext, fun v m hm => ?_⟩
      rcases update_some_cases hm with ⟨-, rfl⟩ | ⟨-, hm⟩
      · exact fun hin => (hns n hin).2 u hu hn
      · exact hmem v m hm
  · intro u v n hu hv
    by_cases hut : u = t
    · by_cases hvt : v = t
      · exact hut.trans hvt.symm
      · rw [hut] at hu
        rw [hcode v hvt] at hv
        exact absurd hv ((hown n hu).2.2 v hvt).1
    · rw [hcode u hut] at hu
      by_cases hvt : v = t
      · rw [hvt] at hv
        exact absurd hu ((hown n hv).2.2 u hut).1
      · rw [hcode v hvt] at hv
        exact h.apart u v n hu hv
  · intro n hn
    rcases hall n hn with hin | hin | ⟨hn, hq, hc⟩
    · exact Or.inl ⟨t, ns, Function.update_self t _ q, hin⟩
    · exact Or.inr ⟨t, hin⟩
    · -- a node of another thread
      rcases h.owned n hn with ⟨u, m, hm, hin⟩ | ⟨u, hu⟩
      · have hut : u ≠ t := by
          rintro rfl
          exact hq m hm hin
        exact Or.inl ⟨u, m, (Function.update_of_ne hut _ q).trans hm, hin⟩
      · have hut : u ≠ t := by
          rintro rfl
          exact hc hu
        exact Or.inr ⟨u, (congrArg Stmt.node (hcode u hut)).trans hu⟩

/-- A statement that only uses the memory of the program. -/
theorem AppInv.local (hI : AppInv P s q) (s' : App) {q' : Pid → Option (List ℕ)}
    (ht : t ∈ P.schedulers)
    (hdev : s'.dev = s.dev) (hrq : RqOk s' q') (hf : s'.fault = s.fault)
    (hcode : ∀ u, u ≠ t → s'.code u = s.code u) (hevent : s'.event = s.event)
    (hargs : s'.args = s.args) (hcontext : s'.context = s.context)
    (hq : ∀ u, u ≠ t → q' u = q u)
    (hnodes : ∀ n, s'.nodes n ≠ s.nodes n → ∀ u, u ≠ t → (s.code u).node ≠ some n ∧
      ∀ m, q u = some m → n ∉ m)
    (hself : ThreadOk P s' q' t) (hc : (s.code t).executes = false)
    (hgo : Goes P (s.code t) (s'.code t) .user) (hpc : s.dev.pc t = .user)
    (hpend : s.dev.batches t = [] → (s'.view q' t).held (s'.code t) ++ (s'.view q' t).rq.getD [] =
      (s.view q t).held (s.code t) ++ (s.view q t).rq.getD []) : UserStep P s q t s' q' := by
  have hown : Device.Own s.dev t s'.dev := by
    rw [hdev]
    exact .refl s.dev t
  refine ⟨hI.of_own (Or.inl ht) (by rw [hdev]; exact hI.dev) hown hrq (hf.trans hI.fault) hcode ?_
    (by rw [hdev]; exact hI.fine) hself, fun r => ?_, by rw [hdev, hpc]; exact hgo,
    by rw [hdev, hc]; rfl⟩
  swap
  · have hsame : (s'.view q' t).batches = (s.view q t).batches := by
      show s'.dev.batches t = s.dev.batches t
      rw [hdev]
    rw [App.dispatched, App.dispatched, hdev, View.pending, View.pending, hsame]
    cases hb : (s.view q t).batches with
    | nil => exact congrArg _ (hpend hb)
    | cons b bs => rfl
  intro u hu
  apply App.view_other hown hu (hcode u hu) (congrFun hevent u) (congrFun hargs u)
    (congrFun hcontext u) (hq u hu)
  · intro ns n hns hn
    by_contra hne
    exact (hnodes n hne u hu).2 ns hns hn
  · intro n hn
    by_contra hne
    exact (hnodes n hne u hu).1 hn

/-- The ring of a queue. -/
theorem rqRings_head {ns : List ℕ} (hq : q t = some ns) :
    rqRings q (.head t) = some (ns.map .node) := by
  rw [rqRings, hq]
  rfl

/-- The nodes of the queue that a thread sees. -/
theorem queue_of_view {l : List (Option Pid)} (h : (s.view q t).rq = some l) :
    ∃ ns, q t = some ns ∧ ns.map s.nodes = l := by
  have h' : (q t).map (·.map s.nodes) = some l := h
  obtain ⟨ns, hns, hl⟩ := Option.map_eq_some_iff.mp h'
  exact ⟨ns, hns, hl⟩

theorem RqOk.initRq (h : RqOk s q) (hq : q t = none) (hs' : s'.rq = initListHead s.rq (.head t))
    (hnodes : s'.nodes = s.nodes) (hnext : s'.next = s.next)
    (hcode : ∀ u, u ≠ t → s'.code u = s.code u) (hold : (s.code t).node = none)
    (hnode : (s'.code t).node = none) : RqOk s' (Function.update q t (some [])) := by
  apply rqOk_update h _ hcode (Nat.le_of_eq hnext.symm)
  · simp
  · intro n hn
    rw [hnode] at hn
    cases hn
  · intro n hn
    rw [hnodes] at hn
    exact Or.inr (Or.inr ⟨hn, by rw [hq]; simp, by rw [hold]; simp⟩)
  · rw [hs']
    apply h.rings.initListHead _ rfl
    -- the sentinel is in no ring: the members are nodes
    intro a l ha hmem
    cases a with
    | node n => cases ha
    | head u =>
      have ha' : (q u).map (·.map RqNode.node) = some l := ha
      obtain ⟨ns, hns, rfl⟩ := Option.map_eq_some_iff.mp ha'
      rcases List.mem_cons.mp hmem with he | hm
      · rw [← RqNode.head.inj he, hq] at hns
        cases hns
      · simp at hm

theorem rq_none_iff : (s.view q t).rq = none ↔ q t = none := Option.map_eq_none_iff

/-- The call of `enter_ums_scheduling_mode`, before which the example sets up its queue. -/
theorem user_enterSchedulingMode (hI : AppInv P s q) (ht : t ∈ P.schedulers)
    (hcode : s.code t = .enterSchedulingMode) (hpc : s.dev.pc t = .user)
    (h : s.user P t env .enterSchedulingMode = some s') : ∃ q', UserStep P s q t s' q' := by
  obtain ⟨hw, hat⟩ := hI.sched ht
  rw [hcode] at hat
  obtain ⟨⟨hb, hperm⟩, hex, hdel, ⟨-, hreg, hrq⟩ | ⟨hno, -⟩⟩ := hat
  swap
  · rcases hno with hno | hno | hno <;> cases hno.symm.trans hpc
  let c : Scheduler := ⟨⟨.running, .junk, 0⟩, none, []⟩
  let d : Device := (s.dev.setScheduler t c).setPc t (.schedAttach P.compList)
  have hs : s.dev.step (.enterScheduler t P.compList) = some d :=
    Device.step_enterScheduler P.compList hpc hreg
  have hd : DeviceReachable d := .tail (.enterScheduler t P.compList) hI.dev ⟨trivial, trivial⟩ hs
  have hown : Device.Own s.dev t d :=
    Device.own_call (a := .enterScheduler t P.compList) (Device.step_call (by simp) hs).2
  have hregd : (d.scheduler t).isSome = true := by
    show (Function.update s.dev.scheduler t (some c) t).isSome = true
    rw [Function.update_self]
    rfl
  have hpcd : d.pc t = .schedAttach P.compList := Device.setPc_self _ t _
  have hbusy : d.pc t ≠ .user := by
    rw [hpcd]
    simp
  cases hinit : P.initInEntry with
  | true =>
    have h' : s.ioctl P t (.enterScheduler t P.compList) = some s' := by
      rw [App.user, hinit] at h
      exact h
    rw [ioctl_busy hs hbusy h']
    refine ⟨q, hI.call (Or.inl ht) (a := .enterScheduler t P.compList) rfl (by simp) trivial hs
      hcode rfl rfl rfl (by rw [hpcd]; exact .enterSchedulingMode) ?_⟩
    rw [ThreadOk, if_pos ht, App.setDev_code, hcode]
    refine ⟨hw, ⟨hb, hperm⟩, hex, hdel, Or.inr ⟨Or.inl hpcd, hregd, ?_⟩⟩
    exact iff_of_true hrq hinit
  | false =>
    have h' : (s.initRq t).ioctl P t (.enterScheduler t P.compList) = some s' := by
      rw [App.user, hinit] at h
      exact h
    rw [ioctl_busy (s := s.initRq t) hs hbusy h']
    have hnone : q t = none := rq_none_iff.mp hrq
    have hnode : (s.code t).node = none := by
      rw [hcode]
      rfl
    have hnew : (((s.initRq t).setDev d).view (Function.update q t (some [])) t).rq = some [] := by
      show (Function.update q t (some []) t).map _ = _
      rw [Function.update_self]
      rfl
    have hfault : ((s.initRq t).setDev d).fault = false := hI.fault
    refine ⟨Function.update q t (some []), hI.of_own (Or.inl ht) hd hown ?_ hfault
      (fun _ _ => rfl) ?_ hI.fine ?_, fun r => ?_, ?_, ?_⟩
    · exact hI.rq.initRq hnone rfl rfl rfl (fun _ _ => rfl) hnode hnode
    · intro u hu
      exact App.view_other hown hu rfl rfl rfl rfl (Function.update_of_ne hu _ q)
        (fun _ _ _ _ => rfl) (fun _ _ => rfl)
    · rw [show (s.view q t).rq = none from hrq] at hperm
      have hcode' : ((s.initRq t).setDev d).code t = .enterSchedulingMode := hcode
      rw [ThreadOk, if_pos ht, hcode']
      refine ⟨hw, ⟨hb, ?_⟩, hex, hdel, Or.inr ⟨Or.inl hpcd, hregd, ?_⟩⟩
      · rw [hnew]
        exact hperm
      · rw [hnew, hinit]
        simp
    · have hcode' : ((s.initRq t).setDev d).code t = .enterSchedulingMode := hcode
      have hb' : (((s.initRq t).setDev d).view (Function.update q t (some [])) t).batches = [] := hb
      rw [App.dispatched, App.dispatched, hcode', hcode, View.pending_idle hb',
        View.pending_idle hb, hnew, hrq]
      rfl
    · show Goes P (s.code t) (s.code t) (d.pc t)
      rw [hcode, hpcd]
      exact .enterSchedulingMode
    · rw [hcode]
      rfl

theorem reason_startup (param : UserPtr) (e : Event) :
    (entryCall param e).reason = .schedulerStartup ↔ e = .schedulerStartup := by
  cases e <;> simp [entryCall]

/-- The test of `list_empty(&rq.head)`. -/
theorem RqOk.listEmpty (h : RqOk s q) {ns : List ℕ} (hq : q t = some ns) :
    KernelList.listEmpty s.rq (.head t) = true ↔ ns = [] := by
  rw [listEmpty_ring _ _ _ (h.rings.ring _ _ (rqRings_head hq) rfl), List.map_eq_nil_iff]

/-- The entry point, for a queue that is set up. -/
theorem AppInv.testRq (hI : AppInv P s q) (ht : t ∈ P.schedulers)
    (hcode : s.code t = .schedEntryProc) {ns : List ℕ} (hq : q t = some ns) :
    UserStep P s q t (s.goto t (if KernelList.listEmpty s.rq (.head t) then .dequeueItems
      else .firstEntry)) q := by
  obtain ⟨hw, hat⟩ := hI.sched ht
  rw [hcode] at hat
  obtain ⟨⟨hb, hperm⟩, hserving, -, hpc, -⟩ := hat
  have hrq : (s.view q t).rq = some (ns.map s.nodes) := congrArg (Option.map _) hq
  rw [hrq, Option.getD_some] at hperm
  have hnode : (s.code t).node = none := by
    rw [hcode]
    rfl
  generalize hc : (if KernelList.listEmpty s.rq (.head t) then Stmt.dequeueItems
    else Stmt.firstEntry) = c
  have hcnode : c.node = none := by
    rw [← hc, apply_ite Stmt.node]
    exact ite_self _
  have hcx : c.executes = false := by
    rw [← hc, apply_ite Stmt.executes]
    exact ite_self _
  have hgo : Goes P .schedEntryProc c .user := by
    rw [← hc]
    split
    · exact .refill
    · exact .schedule
  refine ⟨hI.keep (Or.inl ht) (.goto s t (hcnode.trans hnode.symm)) hI.dev (.refl s.dev t) hI.fine
    ?_, fun r => ?_, ?_, by rw [hcode]; rfl⟩
  rotate_left
  · rw [App.dispatched, App.dispatched, goto_code, view_goto s (hcnode.trans hnode.symm), hcode,
      View.pending_idle hb, View.pending_idle hb, held_of_executes _ hcx]
    rfl
  · rw [goto_code, hcode, show (s.goto t c).dev.pc t = .user from hpc]
    exact hgo
  rw [ThreadOk, if_pos ht, goto_code, view_goto s (hcnode.trans hnode.symm), ← hc]
  refine ⟨hw, ?_⟩
  cases he : KernelList.listEmpty s.rq (.head t) with
  | true =>
    have hnil : ns = [] := (hI.rq.listEmpty hq).mp he
    rw [hnil] at hrq hperm
    refine ⟨hserving, ?_, hrq, Or.inl ⟨Or.inl hpc, hb⟩⟩
    exact List.map_eq_nil_iff.mp (List.perm_nil.mp hperm)
  | false =>
    have hne : ns.map s.nodes ≠ [] := by
      intro hnil
      rw [(hI.rq.listEmpty hq).mpr (List.map_eq_nil_iff.mp hnil)] at he
      cases he
    obtain ⟨x, xs, hx⟩ := List.exists_cons_of_ne_nil hne
    refine ⟨⟨hb, ?_⟩, hserving, hpc, x, xs, hrq.trans (congrArg some hx)⟩
    rw [hrq]
    exact hperm

/-- `sched_entry_proc`: the queue is set up exactly at the first event. -/
theorem user_schedEntryProc (hI : AppInv P s q) (ht : t ∈ P.schedulers)
    (hcode : s.code t = .schedEntryProc) : ∃ q', UserStep P s q t (s.schedEntryProc P t) q' := by
  obtain ⟨hw, hat⟩ := hI.sched ht
  rw [hcode] at hat
  obtain ⟨⟨hb, hperm⟩, hserving, hrq, hpc, hev⟩ := hat
  have hiff : (P.initInEntry = true ∧ (entryCall 0 (s.event t)).reason = .schedulerStartup) ↔
      q t = none := by
    rw [reason_startup, ← rq_none_iff, hrq]
    exact and_congr_right fun _ => hev
  cases hq : q t with
  | some ns =>
    have hno := mt hiff.mp (by rw [hq]; simp)
    rw [App.schedEntryProc, if_neg hno]
    exact ⟨q, hI.testRq ht hcode hq⟩
  | none =>
    rw [App.schedEntryProc, if_pos (hiff.mpr hq)]
    -- the new ring is empty
    have hself : KernelList.listEmpty (s.initRq t).rq (.head t) = true := by
      simp [App.initRq, KernelList.listEmpty, initListHead]
    simp only [hself, if_true]
    have hcode' (u : Pid) (hu : u ≠ t) :
        ((s.initRq t).goto t .dequeueItems).code u = s.code u := by
      show Function.update s.code t _ u = s.code u
      rw [Function.update_of_ne hu]
    have hrqOk : RqOk ((s.initRq t).goto t .dequeueItems) (Function.update q t (some [])) := by
      refine hI.rq.initRq hq ?_ ?_ ?_ hcode' (by rw [hcode]; rfl) ?_
      any_goals rfl
      rw [goto_code]
      rfl
    have hnone : (s.view q t).rq = none := rq_none_iff.mpr hq
    have hnew : (((s.initRq t).goto t .dequeueItems).view (Function.update q t (some [])) t).rq =
        some [] := by
      show (Function.update q t (some []) t).map _ = some []
      rw [Function.update_self]
      rfl
    refine ⟨_, hI.local ((s.initRq t).goto t .dequeueItems) ht rfl hrqOk rfl hcode'
      rfl rfl rfl (fun u hu => Function.update_of_ne hu _ q) (fun n hn => absurd rfl hn) ?_
      (by rw [hcode]; rfl) (by rw [hcode, goto_code]; exact .refill) hpc ?_⟩
    · rw [hnone] at hperm
      rw [ThreadOk, if_pos ht, goto_code]
      exact ⟨hw, hserving, List.map_eq_nil_iff.mp (List.perm_nil.mp hperm), hnew,
        Or.inl ⟨Or.inl hpc, hb⟩⟩
    · intro _
      rw [goto_code, hcode, hnew, hnone]
      rfl

/-- `malloc` and `list_add_tail(&node->list, &rq.head)`. -/
theorem user_addNode (hI : AppInv P s q) (ht : t ∈ P.schedulers) (hcode : s.code t = .addNode) :
    ∃ q', UserStep P s q t (s.addNode t true) q' := by
  obtain ⟨hw, hat⟩ := hI.sched ht
  rw [hcode] at hat
  obtain ⟨hserving, hready, hpc, b, hb, hrq⟩ := hat
  obtain ⟨ns, hq, hns⟩ := queue_of_view hrq
  have hne : RqNode.node s.next ≠ .head t := by simp
  -- the new node is in no queue
  have hloose : Loose (rqRings q) (.node s.next) := by
    intro a l ha hmem
    cases a with
    | node n => cases ha
    | head u =>
      have ha' : (q u).map (·.map RqNode.node) = some l := ha
      obtain ⟨ms, hms, rfl⟩ := Option.map_eq_some_iff.mp ha'
      rcases List.mem_cons.mp hmem with he | hm
      · cases he
      · obtain ⟨n, hn, he⟩ := List.mem_map.mp hm
        cases he
        exact absurd (hI.rq.bound u ms s.next hms hn) (Nat.lt_irrefl _)
  obtain ⟨h', hadd, hrings, -⟩ :=
    hI.rq.rings.listAddTail (.head t) (.node s.next) _ (rqRings_head hq) rfl hloose hne
  have hnone : Function.update (rqRings q) (.node s.next) none = rqRings q :=
    Function.update_eq_self (.node s.next) (rqRings q)
  rw [hnone] at hrings
  rw [App.addNode, if_pos rfl, hadd]
  have hcode' (u : Pid) (hu : u ≠ t) : (Function.update s.code t .nextItem) u = s.code u :=
    Function.update_of_ne hu _ _
  have hfresh (u : Pid) : (s.code u).node ≠ some s.next := by
    intro hn
    exact absurd (hI.rq.held u s.next hn).1 (Nat.lt_irrefl _)
  have hself : (Function.update s.code t .nextItem t).node = none := by
    rw [Function.update_self]
    rfl
  refine ⟨Function.update q t (some (ns ++ [s.next])), hI.local (App.goto _ t .nextItem) ht rfl ?_
    rfl hcode' rfl rfl rfl (fun u hu => Function.update_of_ne hu _ q) ?_ ?_
    (by rw [hcode]; rfl) (by rw [hcode, goto_code]; exact .addNode) hpc ?_⟩
  · apply rqOk_update hI.rq _ hcode' (Nat.le_succ s.next)
    · intro n hn
      rcases List.mem_append.mp hn with hn | hn
      · refine ⟨Nat.lt_succ_of_lt (hI.rq.bound t ns n hq hn), fun u _ hu => ?_⟩
        exact (hI.rq.held u n hu).2 t ns hq hn
      · rw [List.mem_singleton.mp hn]
        exact ⟨Nat.lt_succ_self s.next, fun u _ => hfresh u⟩
    · intro n hn
      cases hself.symm.trans hn
    · intro n hn
      by_cases hnx : n = s.next
      · exact Or.inl (List.mem_append_right ns (List.mem_singleton.mpr hnx))
      by_cases hin : n ∈ ns
      · exact Or.inl (List.mem_append_left _ hin)
      refine Or.inr (Or.inr ⟨?_, fun m hm => ?_, ?_⟩)
      · exact fun h => hn ((Function.update_of_ne hnx _ s.nodes).trans h)
      · rw [hq, Option.some.injEq] at hm
        rwa [← hm]
      · rw [hcode]
        simp [Stmt.node]
    · rw [List.map_append]
      exact hrings
  · -- only the new node is written
    intro n hn u hu
    have hnext : n = s.next := by
      by_contra hnx
      exact hn (Function.update_of_ne hnx _ s.nodes)
    subst hnext
    exact ⟨hfresh u, fun m hm hin => absurd (hI.rq.bound u m _ hm hin) (Nat.lt_irrefl _)⟩
  · rw [ThreadOk, if_pos ht, goto_code]
    refine ⟨hw, hserving, hready, Or.inl hpc, b, hb, ?_⟩
    show (Function.update q t (some (ns ++ [s.next])) t).map
      (·.map (Function.update s.nodes s.next (some (s.context t)))) = _
    have hold : ns.map (Function.update s.nodes s.next (some (s.context t))) = ns.map s.nodes := by
      apply List.map_congr_left
      intro n hn
      exact Function.update_of_ne (Nat.ne_of_lt (hI.rq.bound t ns n hq hn)) _ _
    rw [Function.update_self, Option.map_some, List.map_append, hold, hns, List.map_singleton,
      Function.update_self, List.reverse_cons, List.map_append]
    rfl
  · intro hno
    cases hno.symm.trans hb

/-- `list_first_entry(&rq.head, ..)` and `list_del(&node->list)`. -/
theorem user_firstEntry (hI : AppInv P s q) (ht : t ∈ P.schedulers)
    (hcode : s.code t = .firstEntry) : ∃ q', UserStep P s q t (s.firstEntry t) q' := by
  obtain ⟨hw, hat⟩ := hI.sched ht
  rw [hcode] at hat
  obtain ⟨⟨hb, hperm⟩, hserving, hpc, x, xs, hrq⟩ := hat
  obtain ⟨ns₀, hq, hns⟩ := queue_of_view hrq
  obtain ⟨n, ns, rfl, hx, hxs⟩ := List.map_eq_cons_iff.mp hns
  have hring := hI.rq.rings.ring _ _ (rqRings_head hq) rfl
  have hnext : (s.rq (.head t)).next = .node (.node n) := hring.1.1.1
  obtain ⟨h', hdel, hrings⟩ :=
    hI.rq.rings.dropFirst (.head t) (.node n) (ns.map .node) (rqRings_head hq) rfl
  rw [App.firstEntry, hnext]
  simp only [hdel]
  have hcode' (u : Pid) (hu : u ≠ t) : (Function.update s.code t (.execute n)) u = s.code u :=
    Function.update_of_ne hu _ _
  have hfree (u : Pid) (hu : (s.code u).node = some n) : False :=
    (hI.rq.held u n hu).2 t _ hq List.mem_cons_self
  have hnew : ((App.goto { s with rq := h' } t (.execute n)).view
      (Function.update q t (some ns)) t).rq = some xs := by
    show (Function.update q t (some ns) t).map _ = _
    rw [Function.update_self]
    exact congrArg some hxs
  have hnode : ((App.goto { s with rq := h' } t (.execute n)).view
      (Function.update q t (some ns)) t).node = x := by
    show ((App.goto { s with rq := h' } t (.execute n)).code t).node.bind s.nodes = x
    rw [goto_code]
    exact hx
  refine ⟨Function.update q t (some ns), hI.local
    (App.goto { s with rq := h' } t (.execute n)) ht rfl ?_ rfl hcode' rfl rfl rfl
    (fun u hu => Function.update_of_ne hu _ q) (fun m hm => absurd rfl hm) ?_
    (by rw [hcode]; rfl) (by rw [hcode, goto_code]; exact .firstEntry n) hpc ?_⟩
  · refine rqOk_update hI.rq hrings hcode' ?_ ?_ ?_ ?_
    · exact Nat.le_refl s.next
    · intro m hm
      have hmem := List.mem_cons_of_mem n hm
      exact ⟨hI.rq.bound t _ m hq hmem, fun u _ hu => (hI.rq.held u m hu).2 t _ hq hmem⟩
    · intro m hm
      obtain rfl : n = m := by
        have hm' : (Function.update s.code t (.execute n) t).node = some m := hm
        rw [Function.update_self] at hm'
        exact Option.some.inj hm'
      refine ⟨hI.rq.bound t _ n hq List.mem_cons_self, ?_, fun u hu => ⟨hfree u, ?_⟩⟩
      · have hnd := (hI.rq.rings.nodup _ _ (rqRings_head hq))
        intro hin
        rw [List.nodup_cons, List.map_cons, List.nodup_cons] at hnd
        exact hnd.2.1 (List.mem_map_of_mem hin)
      · -- a node in two queues
        intro m hm hin
        have hsame := hI.rq.rings.disjoint (.head t) (.head u) _ _ (.node n) (rqRings_head hq)
          (rqRings_head hm) (List.mem_cons_of_mem _ List.mem_cons_self)
          (List.mem_cons_of_mem _ (List.mem_map_of_mem hin))
        exact hu (RqNode.head.inj hsame).symm
    · intro m hm
      by_cases hmn : m = n
      · subst hmn
        exact Or.inr (Or.inl (congrArg Stmt.node (goto_code _ t _)))
      by_cases hin : m ∈ ns
      · exact Or.inl hin
      refine Or.inr (Or.inr ⟨hm, fun k hk => ?_, ?_⟩)
      · rw [hq, Option.some.injEq] at hk
        simp [← hk, hmn, hin]
      · rw [hcode]
        simp [Stmt.node]
  · rw [hrq, Option.getD_some] at hperm
    obtain ⟨w, hw', rfl⟩ : ∃ w, w ∈ s.dev.ready t ∧ some w = x := by
      have hmem : x ∈ (s.dev.ready t).map some := hperm.mem_iff.mpr List.mem_cons_self
      simpa using hmem
    rw [ThreadOk, if_pos ht, goto_code]
    refine ⟨hw, by rw [hnew]; simp, ?_, w, hnode, Or.inl ⟨hserving, hpc, hb, ?_⟩⟩
    · have hlt := hserving.2
      exact hlt ▸ Nat.succ_pos _
    · rw [hnew]
      exact hperm
  · -- the first of the queue is in the hands of the thread
    intro _
    have hheld : ((App.goto { s with rq := h' } t (.execute n)).view
        (Function.update q t (some ns)) t).held (.execute n) = [x] := by
      rw [← hnode]
      exact if_pos hpc
    rw [goto_code, hcode, hheld, hnew, hrq]
    rfl

/-- `free(node)`. -/
theorem user_freeNode (hI : AppInv P s q) (ht : t ∈ P.schedulers) (n : ℕ)
    (hcode : s.code t = .freeNode n) : UserStep P s q t (s.freeNode t n) q := by
  obtain ⟨hw, hat⟩ := hI.sched ht
  rw [hcode] at hat
  obtain ⟨⟨hb, hperm⟩, hserved, hrq, hdel, hpc, hnode⟩ := hat
  have hheld : (s.code t).node = some n := by
    rw [hcode]
    rfl
  obtain ⟨w, hn⟩ : ∃ w, s.nodes n = some w := by
    have hnode' : (s.code t).node.bind s.nodes ≠ none := hnode
    rw [hheld] at hnode'
    exact Option.ne_none_iff_exists'.mp hnode'
  rw [App.freeNode, hn]
  have hcode' (u : Pid) (hu : u ≠ t) : (Function.update s.code t .dequeueEvent) u = s.code u :=
    Function.update_of_ne hu _ _
  -- who holds a node now has held it before
  have hnew (u : Pid) (m : ℕ) (hm : (Function.update s.code t .dequeueEvent u).node = some m) :
      u ≠ t ∧ (s.code u).node = some m := by
    by_cases hu : u = t
    · subst hu
      rw [Function.update_self] at hm
      cases hm
    · rw [hcode' u hu] at hm
      exact ⟨hu, hm⟩
  have hrqOk :
      RqOk ({ s with nodes := Function.update s.nodes n none }.goto t .dequeueEvent) q := by
    refine ⟨hI.rq.rings, hI.rq.bound, fun u m hm => hI.rq.held u m (hnew u m hm).2,
      fun u v m hu hv => hI.rq.apart u v m (hnew u m hu).2 (hnew v m hv).2, ?_⟩
    intro m hm
    replace hm : Function.update s.nodes n none m ≠ none := hm
    have hmn : m ≠ n := by
      rintro rfl
      exact hm (Function.update_self m none s.nodes)
    have hm' : s.nodes m ≠ none := by
      rwa [← Function.update_of_ne hmn none s.nodes]
    refine (hI.rq.owned m hm').imp_right ?_
    rintro ⟨u, hu⟩
    have hut : u ≠ t := by
      rintro rfl
      exact hmn (Option.some.inj (hu.symm.trans hheld))
    exact ⟨u, (congrArg Stmt.node (hcode' u hut)).trans hu⟩
  have hsame : ((App.goto { s with nodes := Function.update s.nodes n none } t
      .dequeueEvent).view q t).rq = (s.view q t).rq := by
    show (q t).map (·.map (Function.update s.nodes n none)) = (q t).map (·.map s.nodes)
    cases hq : q t with
    | none => rfl
    | some ns =>
      apply congrArg some
      apply List.map_congr_left
      intro m hm
      apply Function.update_of_ne
      rintro rfl
      exact (hI.rq.held t m hheld).2 t ns hq hm
  refine hI.local (App.goto _ t .dequeueEvent) ht rfl hrqOk rfl hcode' rfl rfl rfl
    (fun _ _ => rfl) ?_ ?_ (by rw [hcode]; rfl) (by rw [hcode, goto_code]; exact .freeNode n) hpc ?_
  · intro m hm u hu
    have hmn : m = n := by
      by_contra hmn
      exact hm (Function.update_of_ne hmn _ s.nodes)
    subst hmn
    exact ⟨fun hum => hu (hI.rq.apart u t m hum hheld), (hI.rq.held t m hheld).2 u⟩
  · rw [ThreadOk, if_pos ht, goto_code]
    refine ⟨hw, ⟨hb, ?_⟩, hserved, ?_, Or.inl hpc⟩
    · rw [hsame]
      exact hperm
    · rw [hsame]
      exact iff_of_false hrq (fun h => absurd h.2 (Nat.ne_of_gt hdel))
  · intro _
    rw [goto_code, hcode, hsame]
    rfl

end User

section Runs

variable {P : Program} {s s' : App} {q : Pid → Option (List ℕ)} {t : Pid}

/-- The places of the ioctl that a statement makes. -/
def Stmt.at (c : Stmt) (x : Pc) : Bool :=
  match c with
  | .enterSchedulingMode =>
    match x with
    | .user | .schedAttach _ | .startup | .startReturn => true
    | _ => false
  | .dequeueEvent =>
    match x with
    | .user | .evTest | .evReturn => true
    | _ => false
  | .dequeueItems =>
    match x with
    | .user | .dqTest _ | .dqWait _ | .dqReturn => true
    | _ => false
  | .nextItem =>
    match x with
    | .user | .nextContext _ => true
    | _ => false
  | .execute _ =>
    match x with
    | .user | .switching (.exec _) _ | .schedule (.exec _) | .blocked (.exec _) => true
    | _ => false
  | .enterWorker =>
    match x with
    | .user | .enterAttach _ | .switching (.enter _) _ | .enterAdd _ | .schedule .enterWorker
    | .blocked .enterWorker => true
    | _ => false
  | .func (_ + 1) => x.inYield
  | .func 0 => x.inExit
  | .schedEntryProc | .addNode | .firstEntry | .freeNode _ | .done => x = .user

theorem at_of_inEnter {l : ListId} {c : Pc} (h : c.inEnter l = true) :
    Stmt.enterWorker.at c = true := by
  cases c with
  | switching k =>
    cases k with
    | enter => rfl
    | exec | yield | exit => cases h
  | schedule k | blocked k =>
    cases k with
    | enterWorker => rfl
    | _ => cases h
  | enterAdd => rfl
  | _ => cases h

/-- A thread is at its statement, or in the ioctl of it. -/
theorem AppInv.at (hI : AppInv P s q) (t : Pid) : (s.code t).at (s.dev.pc t) = true := by
  have hgo {c : Stmt} {x : Pc} (hx : (s.view q t).pc = x) (h : c.at x = true) :
      c.at (s.dev.pc t) = true := by
    rw [show s.dev.pc t = x from hx]
    exact h
  by_cases ht : t ∈ P.schedulers
  · have hat := (hI.sched ht).2
    generalize s.code t = c at hat ⊢
    cases c with
    | enterSchedulingMode =>
      obtain ⟨-, -, -, ⟨h, -⟩ | ⟨h | h | h, -⟩⟩ := hat <;> exact hgo h rfl
    | dequeueEvent =>
      obtain ⟨-, -, -, h | h | ⟨h, -⟩⟩ := hat <;> exact hgo h rfl
    | schedEntryProc => exact hgo hat.2.2.2.1 rfl
    | dequeueItems =>
      obtain ⟨-, -, -, ⟨h | h | h, -⟩ | ⟨h, -⟩⟩ := hat <;> exact hgo h rfl
    | addNode | firstEntry => exact hgo hat.2.2.1 rfl
    | nextItem => rcases hat.2.2.1 with h | h <;> exact hgo h rfl
    | execute n =>
      obtain ⟨-, -, w, -, ⟨-, h, -⟩ | ⟨-, -, ⟨ops, h⟩ | h | h⟩⟩ := hat <;> exact hgo h rfl
    | freeNode n => exact hgo hat.2.2.2.2.1 rfl
    | enterWorker | func | done => exact hat.elim
  · have hat := (hI.work ht).2
    generalize s.code t = c at hat ⊢
    cases c with
    | enterWorker =>
      rcases hat with ⟨h, -⟩ | ⟨h, -⟩ | ⟨-, h⟩
      · exact hgo h rfl
      · exact hgo h rfl
      · exact at_of_inEnter h
    | func k => cases k <;> exact hat.2
    | done => exact hgo hat.1 rfl
    | _ => exact hat.elim

/-- The statement that a thread has come from, by its place in an ioctl. -/
def Pc.From (c : Stmt) : Pc → Prop
  | .user => True
  | .enterAttach _ | .switching (.enter _) _ | .enterAdd _ | .schedule .enterWorker
  | .blocked .enterWorker => c = .enterWorker
  | .switching (.exec _) _ | .schedule (.exec _) | .blocked (.exec _) => ∃ n, c = .execute n
  | .switching (.yield _) _ | .yieldAdd | .yieldParent _ | .yieldPost _ _ | .schedule .yield
  | .blocked .yield => ∃ k, c = .func (k + 1)
  | .switching (.exit _) _ | .exitParent | .exitPost _ | .destroy => c = .func 0
  | .schedAttach _ | .startup | .startReturn => c = .enterSchedulingMode
  | .dqTest _ | .dqWait _ | .dqReturn => c = .dequeueItems
  | .nextContext _ => c = .nextItem
  | .evTest | .evReturn => c = .dequeueEvent
  | .evWait | .schedule _ | .blocked _ => False

theorem from_of_at {c : Stmt} {x : Pc} (h : c.at x = true) : x.From c := by
  cases c with
  | enterSchedulingMode | dequeueEvent | dequeueItems | nextItem =>
    cases x with
    | user => trivial
    | schedAttach | startup | startReturn | dqTest | dqWait | dqReturn | nextContext | evTest
    | evReturn =>
      first
      | rfl
      | cases h
    | _ => cases h
  | execute n =>
    cases x with
    | user => trivial
    | switching k =>
      cases k with
      | exec => exact ⟨n, rfl⟩
      | enter | yield | exit => cases h
    | schedule k | blocked k =>
      cases k with
      | exec => exact ⟨n, rfl⟩
      | _ => cases h
    | _ => cases h
  | enterWorker =>
    cases x with
    | user => trivial
    | enterAttach | enterAdd => rfl
    | switching k =>
      cases k with
      | enter => rfl
      | exec | yield | exit => cases h
    | schedule k | blocked k =>
      cases k with
      | enterWorker => rfl
      | _ => cases h
    | _ => cases h
  | func k =>
    cases k with
    | zero =>
      cases x with
      | user => trivial
      | exitParent | exitPost | destroy => rfl
      | switching k =>
        cases k with
        | exit => rfl
        | enter | exec | yield => cases h
      | _ => cases h
    | succ k =>
      cases x with
      | user => trivial
      | yieldParent | yieldPost | yieldAdd => exact ⟨k, rfl⟩
      | switching x =>
        cases x with
        | yield => exact ⟨k, rfl⟩
        | enter | exec | exit => cases h
      | schedule x | blocked x =>
        cases x with
        | yield => exact ⟨k, rfl⟩
        | _ => cases h
      | _ => cases h
  | schedEntryProc | addNode | firstEntry | freeNode | done =>
    rw [of_decide_eq_true h]
    trivial

theorem AppInv.from (hI : AppInv P s q) {x : Pc} (hpc : s.dev.pc t = x) : x.From (s.code t) := by
  rw [← hpc]
  exact from_of_at (hI.at t)

/-- The event queue of a scheduler is never empty when it asks for an event. -/
theorem AppInv.not_evWait (hI : AppInv P s q) (t : Pid) : s.dev.pc t ≠ .evWait :=
  fun hpc => hI.from hpc

/-- A step inside a call that is no wait for an event and no exit without a parent. -/
theorem fine_move {d d' : Device} {c : Pc} (hm : d.Move t c d') (hev : c ≠ .evWait)
    (hparent : c = .exitParent → ∀ w, d.worker t = some w → w.context.parent ≠ .null)
    (h : ∀ o ∈ d.hist, Fine o) : ∀ o ∈ d'.hist, Fine o := by
  cases hm with
  | enterAttach | sleep | schedAttach | dqSleep | dqTake | dqWoken | yieldParent | exitParent
  | evSleep | evTake => exact h
  | enterAdd | yieldAdd | startup | yieldPost | exitPost => exact fine_cons trivial h
  | awake | wake | startReturn | dqReturn | next | close | destroy | evReturn =>
    exact fine_cons (Or.inl rfl) h
  | dqInterrupted => exact fine_cons (Or.inr ⟨rfl, rfl⟩) h
  | exitOrphan w hw hp => exact absurd hp (hparent rfl w hw)
  | evInterrupted | evWoken => exact absurd rfl hev
  | switching k op ops =>
    have hb := Device.beside_switchOp d (k.contexts t).1 (k.contexts t).2 op
    show ∀ o ∈ (if op = .wakeUp then _ else _), Fine o
    rw [hb.hist]
    split
    · cases k with
      | enter => exact h
      | exec | yield | exit => exact fine_cons trivial h
    · exact h

/-- A step of the kernel inside an ioctl of the program. -/
theorem AppInv.kernel (hI : AppInv P s q) (hpc : s.dev.pc t ≠ .user)
    (h : (s.copyToUser t).ioctl P t (.run t) = some s') : AppStep P s q t s' q := by
  rw [App.ioctl, App.copyToUser_dev] at h
  obtain ⟨d, hs, rfl⟩ := Option.map_eq_some_iff.mp h
  have hd : DeviceReachable d := .tail (.run t) hI.dev ⟨trivial, trivial⟩ hs
  have hm := Device.move_of_run hs (Device.fault_of_reachable hd)
  have hdev := App.enter_dev P (s.copyToUser t) t d
  refine hI.keep (hI.busy hpc) ((App.kept_copyToUser s t).trans (App.kept_enter P _ t d)) ?_ ?_ ?_
    (threadOk_kernel hI hd hm hpc)
  · rw [hdev]
    exact hd
  · rw [hdev]
    exact hm.own
  · rw [hdev]
    exact fine_move hm (hI.not_evWait t) (fun hx w hw => Device.parent_of_exit hI.dev hx hw) hI.fine

/-- A statement of the program. -/
theorem AppInv.user (hI : AppInv P s q) {env : Env} (henv : env.malloc = true)
    (hpc : s.dev.pc t = .user) (h : s.user P t env (s.code t) = some s') :
    ∃ q', UserStep P s q t s' q' := by
  by_cases ht : t ∈ P.schedulers
  · have hat := (hI.sched ht).2
    generalize hcode : s.code t = c at h hat
    cases c with
    | enterSchedulingMode => exact user_enterSchedulingMode hI ht hcode hpc h
    | dequeueEvent => exact ⟨q, user_dequeueEvent hI ht hcode hpc h⟩
    | schedEntryProc =>
      cases h
      exact user_schedEntryProc hI ht hcode
    | dequeueItems => exact ⟨q, user_dequeueItems hI ht hcode hpc h⟩
    | addNode =>
      cases h
      rw [henv]
      exact user_addNode hI ht hcode
    | nextItem => exact ⟨q, user_nextItem hI ht hcode hpc h⟩
    | firstEntry =>
      cases h
      exact user_firstEntry hI ht hcode
    | execute n => exact ⟨q, user_execute hI ht n hcode hpc h⟩
    | freeNode n =>
      cases h
      exact ⟨q, user_freeNode hI ht n hcode⟩
    | enterWorker | func | done => exact hat.elim
  · have hat := (hI.work ht).2
    generalize hcode : s.code t = c at h hat
    cases c with
    | enterWorker => exact ⟨q, user_enterWorker hI ht hcode hpc h⟩
    | func k => exact ⟨q, user_func hI ht k hcode hpc h⟩
    | done => cases h
    | _ => exact hat.elim

/-- A signal changes the state of a waiting task, which no thread of the program looks at. -/
theorem AppInv.signal (hI : AppInv P s q) (hcalm : Calm s.dev (.signal t))
    (h : (s.dev.step (.signal t)).map s.setDev = some s') : AppStep P s q t s' q := by
  obtain ⟨d, hs, rfl⟩ := Option.map_eq_some_iff.mp h
  have hd : DeviceReachable d := .tail (.signal t) hI.dev ⟨trivial, hcalm⟩ hs
  obtain ⟨-, rfl⟩ := Device.step_signal hs
  exact ⟨⟨hd, ⟨hI.rq.rings, hI.rq.bound, hI.rq.held, hI.rq.apart, hI.rq.owned⟩, hI.thread, hI.off,
    hI.fine, hI.fault⟩, .task s.dev t .running, fun _ _ => rfl, fun _ _ => rfl⟩

theorem appInv_step {a : AppAct} (hI : AppInv P s q) (ha : Fair s a)
    (hs : s.step P a = some s') : ∃ q', AppInv P s' q' := by
  cases a with
  | user t env =>
    obtain ⟨hpc, hs⟩ := App.user_of_step hs
    obtain ⟨q', h⟩ := hI.user ha hpc hs
    exact ⟨q', h.inv⟩
  | kernel t =>
    obtain ⟨hpc, hs⟩ := App.kernel_of_step hs
    exact ⟨q, (hI.kernel hpc hs).inv⟩
  | signal t => exact ⟨q, (hI.signal ha hs).inv⟩

theorem appInv_of_reachable (hr : AppReachable P s) : ∃ q, AppInv P s q := by
  refine hr.invariant (fun s => ∃ q, AppInv P s q) ⟨_, appInv_init P⟩ ?_
  rintro s a s' ⟨q, hI⟩ ha hs
  exact appInv_step hI ha hs

end Runs

end LinuxUms
