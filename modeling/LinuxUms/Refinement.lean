import LinuxUms.History
import LinuxUms.Simulation

namespace LinuxUms

open KernelList

section Switch

variable {s : Device} {σ : Handoff Pid ListId Event}

theorem Abs.worker_of_place (hA : Abs s σ) (t : Pid) (h : σ.place t ≠ .off) :
    ∃ w, s.worker t = some w := by
  apply Option.ne_none_iff_exists'.mp
  rwa [ne_eq, hA.live t]

/-- `prepare_switch_context` from a scheduler to the worker it executes. -/
theorem simulates_switch_exec (hA : Abs s σ) (hI : σ.Inv) (t w : Pid) (op : SwitchOp)
    (ops : List SwitchOp) (hpc : s.pc t = .switching (.exec w) (op :: ops)) :
    Simulates (s.stepSwitch t (.exec w) op ops) σ := by
  have hok := hA.pc t
  rw [hpc] at hok
  obtain ⟨hsuf, -, hsch, hpar, htask⟩ := hok
  have hsuf' : ops <:+ prepareSwitchContext := (List.suffix_cons op ops).trans hsuf
  obtain ⟨y, hy⟩ := Option.isSome_iff_exists.mp hsch
  have hph : σ.phase t = .execPre w := by
    rw [hA.phase t, hpc]
    rfl
  have hu := hI.execPre t w hph
  -- nobody waits for the worker before it has been woken
  have hnw (p : Pid) : σ.phase p ≠ .execWait w := by
    intro hp
    have hpt : p = t := Place.under.inj ((hI.execWait p w hp).symm.trans hu)
    cases (hpt ▸ hp).symm.trans hph
  obtain ⟨x, hx⟩ := hA.worker_of_place w (by simp [hu])
  have hat := (hA.worker w x hx).attached (by simp [hu])
  have hset (v : Option Scheduler) (hv : v.isSome) :
      (Function.update s.scheduler t v t).isSome := by
    rwa [Function.update_self]
  rcases suffix_prepareSwitchContext hsuf with ⟨rfl, rfl⟩ | ⟨rfl, rfl⟩ | ⟨rfl, rfl⟩ | ⟨rfl, rfl⟩ |
    ⟨rfl, rfl⟩ | ⟨rfl, rfl⟩
  · -- `w->parent = t`
    refine Abs.simulates ?_
    simp only [Device.stepSwitch, Device.switchOp, Switching.contexts, modifyContext_worker _ hx,
      reduceCtorEq, if_false]
    refine hA.storeWorker hI t w x _ _ hx ?_ (Or.inr hph) (by rw [hpc]; rfl) ?_ ?_
    · exact .of_away (Or.inl ⟨_, hu⟩) hat (fun p hp => absurd hp (hnw p))
    · rw [hpc]
      rfl
    · exact ⟨hsuf', by simp, hsch, fun _ => ⟨_, Function.update_self .., rfl⟩, by simp⟩
  · refine Abs.simulates ?_
    simp only [Device.stepSwitch, Device.switchOp, Switching.contexts, modifyContext_scheduler _ hy,
      reduceCtorEq, if_false]
    refine hA.storeScheduler t t _ _ hsch (by rw [hpc]; rfl) ?_ ?_
    · rw [hpc]
      rfl
    · exact ⟨hsuf', by simp, hset _ rfl, fun _ => hpar (by simp), by simp⟩
  · refine Abs.simulates ?_
    simp only [Device.stepSwitch, Device.switchOp, Switching.contexts, modifyContext_scheduler _ hy,
      reduceCtorEq, if_false]
    refine hA.storeScheduler t t _ _ hsch (by rw [hpc]; rfl) ?_ ?_
    · rw [hpc]
      rfl
    · exact ⟨hsuf', by simp, hset _ rfl, fun _ => hpar (by simp), by simp⟩
  · -- from here on a wake-up of `t` is not lost
    refine Abs.simulates ?_
    refine hA.storeTask t _ (by rw [hpc]; rfl) ?_ ?_
    · rw [hpc]
      rfl
    · exact ⟨hsuf', by simp, hsch, fun _ => hpar (by simp), fun _ => Function.update_self ..⟩
  · obtain ⟨x', hx', hparent⟩ := hpar (by simp)
    obtain rfl : x = x' := by rw [← Option.some.injEq, ← hx, hx']
    refine Abs.simulates ?_
    simp only [Device.stepSwitch, Device.switchOp, Switching.contexts, modifyContext_worker _ hx,
      reduceCtorEq, if_false]
    refine hA.storeWorker hI t w x _ _ hx ?_ (Or.inr hph) (by rw [hpc]; rfl) ?_ ?_
    · exact .of_away (Or.inl ⟨_, hu⟩) hat (fun p hp => absurd hp (hnw p))
    · rw [hpc]
      rfl
    · exact ⟨hsuf', by simp, hsch, fun _ => ⟨_, Function.update_self .., hparent⟩,
        fun _ => htask (by simp)⟩
  · -- the last of the six stores is the one that the hand-over sees
    exact hA.wake hI t w hpc

/-- `prepare_switch_context` from a yielding worker to its scheduler. -/
theorem simulates_switch_yield (hA : Abs s σ) (hI : σ.Inv) (t p : Pid) (op : SwitchOp)
    (ops : List SwitchOp) (hpc : s.pc t = .switching (.yield p) (op :: ops)) :
    Simulates (s.stepSwitch t (.yield p) op ops) σ := by
  have hok := hA.pc t
  rw [hpc] at hok
  obtain ⟨hsuf, -, hidle, htask⟩ := hok
  have hsuf' : ops <:+ prepareSwitchContext := (List.suffix_cons op ops).trans hsuf
  have hph : σ.phase t = .posted p := by
    rw [hA.phase t, hpc]
    rfl
  have hu := hI.posted t p hph
  have hsch := (hA.waits_for hI t p (Or.inr hph)).2
  obtain ⟨y, hy⟩ := Option.isSome_iff_exists.mp hsch
  obtain ⟨x, hx⟩ := hA.worker_of_place t (by simp [hu])
  have hok := hA.worker t x hx
  have hat := hok.attached (by simp [hu])
  have hself : (t = t ∧ σ.phase t ≠ .parked) ∨ σ.phase t = .execPre t := Or.inl ⟨rfl, by simp [hph]⟩
  have hkeep : (Pc.switching (.yield p) ops).phase (s.task t) = (s.pc t).phase (s.task t) := by
    rw [hpc]
    rfl
  rcases suffix_prepareSwitchContext hsuf with ⟨rfl, rfl⟩ | ⟨rfl, rfl⟩ | ⟨rfl, rfl⟩ | ⟨rfl, rfl⟩ |
    ⟨rfl, rfl⟩ | ⟨rfl, rfl⟩
  · -- `p->parent = t`
    refine Abs.simulates ?_
    simp only [Device.stepSwitch, Device.switchOp, Switching.contexts, modifyContext_scheduler _ hy,
      reduceCtorEq, if_false]
    refine hA.storeScheduler t p _ _ hsch (by rw [hpc]; rfl) hkeep ?_
    exact ⟨hsuf', by simp, by simp, by simp⟩
  · refine Abs.simulates ?_
    simp only [Device.stepSwitch, Device.switchOp, Switching.contexts, modifyContext_worker _ hx,
      reduceCtorEq, if_false]
    refine hA.storeWorker hI t t x _ _ hx (.of_away (Or.inl ⟨_, hu⟩) hat hok.parent) hself
      (by rw [hpc]; rfl)
      hkeep ?_
    exact ⟨hsuf', by simp, by simp, by simp⟩
  · refine Abs.simulates ?_
    simp only [Device.stepSwitch, Device.switchOp, Switching.contexts, modifyContext_worker _ hx,
      reduceCtorEq, if_false]
    refine hA.storeWorker hI t t x _ _ hx (.of_away (Or.inl ⟨_, hu⟩) hat hok.parent) hself
      (by rw [hpc]; rfl)
      hkeep ?_
    exact ⟨hsuf', by simp, fun _ => ⟨_, Function.update_self .., rfl⟩, by simp⟩
  · refine Abs.simulates ?_
    refine hA.storeTask t _ (by rw [hpc]; rfl) hkeep ?_
    exact ⟨hsuf', by simp, fun _ => hidle (by simp), fun _ => Function.update_self ..⟩
  · refine Abs.simulates ?_
    simp only [Device.stepSwitch, Device.switchOp, Switching.contexts, modifyContext_scheduler _ hy,
      reduceCtorEq, if_false]
    refine hA.storeScheduler t p _ _ hsch (by rw [hpc]; rfl) hkeep ?_
    exact ⟨hsuf', by simp, fun _ => hidle (by simp), fun _ => htask (by simp)⟩
  · exact hA.wakeSched hI t p .yieldAdd hph (fun _ => rfl) ⟨htask (by simp), hidle (by simp)⟩

/-- `wake_up_context` by an ending worker. -/
theorem simulates_switch_exit (hA : Abs s σ) (hI : σ.Inv) (t p : Pid) (op : SwitchOp)
    (ops : List SwitchOp) (hpc : s.pc t = .switching (.exit p) (op :: ops)) :
    Simulates (s.stepSwitch t (.exit p) op ops) σ := by
  have hok := hA.pc t
  rw [hpc] at hok
  have hph : σ.phase t = .posted p := by
    rw [hA.phase t, hpc]
    rfl
  have hsch := (hA.waits_for hI t p (Or.inr hph)).2
  obtain ⟨y, hy⟩ := Option.isSome_iff_exists.mp hsch
  rcases suffix_wakeUpContext hok.1 with ⟨rfl, rfl⟩ | ⟨rfl, rfl⟩
  · refine Abs.simulates ?_
    simp only [Device.stepSwitch, Device.switchOp, Switching.contexts, modifyContext_scheduler _ hy,
      reduceCtorEq, if_false]
    refine hA.storeScheduler t p _ _ hsch (by rw [hpc]; rfl) ?_ ?_
    · rw [hpc]
      rfl
    · exact ⟨(List.suffix_cons _ _).trans hok.1, by simp⟩
  · exact hA.wakeSched hI t p .destroy hph (fun _ => rfl) trivial

/-- `prepare_suspend_context` by an entering worker. -/
theorem simulates_switch_enter (hA : Abs s σ) (hI : σ.Inv) (t : Pid) (l : ListId) (op : SwitchOp)
    (ops : List SwitchOp) (hpc : s.pc t = .switching (.enter l) (op :: ops)) :
    Simulates (s.stepSwitch t (.enter l) op ops) σ := by
  have hok := hA.pc t
  rw [hpc] at hok
  obtain ⟨hsuf, -, x, hx, hl, hidle⟩ := hok
  have hph : σ.phase t = .entering := by
    rw [hA.phase t, hpc]
    rfl
  have hent := (hI.entering t).mpr hph
  refine Abs.simulates ?_
  rcases suffix_prepareSuspendContext hsuf with ⟨rfl, rfl⟩ | ⟨rfl, rfl⟩
  · simp only [Device.stepSwitch, Device.switchOp, Switching.contexts, modifyContext_worker _ hx,
      reduceCtorEq, if_false]
    refine hA.storeWorker hI t t x _ _ hx ?_ (Or.inl ⟨rfl, by simp [hph]⟩) (by rw [hpc]; rfl)
      ?_ ?_
    · exact .of_entering hent (hA.worker t x hx).parent
    · rw [hpc]
      rfl
    · exact ⟨(List.suffix_cons _ _).trans hsuf, by simp, _, Function.update_self .., hl,
        fun _ => rfl⟩
  · refine hA.storeTask t _ (by rw [hpc]; rfl) ?_ ?_
    · rw [hpc]
      rfl
    · exact ⟨Function.update_self .., x, hx, hl, hidle (by simp)⟩

theorem simulates_switch (hA : Abs s σ) (hI : σ.Inv) (t : Pid) (k : Switching) (op : SwitchOp)
    (ops : List SwitchOp) (hpc : s.pc t = .switching k (op :: ops)) :
    Simulates (s.stepSwitch t k op ops) σ := by
  cases k with
  | enter l => exact simulates_switch_enter hA hI t l op ops hpc
  | exec w => exact simulates_switch_exec hA hI t w op ops hpc
  | yield p => exact simulates_switch_yield hA hI t p op ops hpc
  | exit p => exact simulates_switch_exit hA hI t p op ops hpc

/-- `schedule()` returns to a worker that was executed, or to a scheduler whose worker left. -/
theorem simulates_return (hA : Abs s σ) (t : Pid) (c : Call Pid)
    (hpc : s.pc t = .schedule c ∨ s.pc t = .blocked c) (htask : s.task t = .running) :
    Simulates (s.ret t c .ok) σ := by
  have hphase : (s.pc t).phase (s.task t) = c.phase .running := by
    rcases hpc with hpc | hpc <;> rw [hpc, htask] <;> rfl
  cases c with
  | enterWorker => exact hA.resume t _ (Or.inl rfl) hphase
  | yield => exact hA.resume t _ (Or.inr rfl) hphase
  | exec w => exact hA.execReturn t w hphase
  | _ => exact hA.ret t _ .ok (Or.inr rfl) (by rcases hpc with h | h <;> rw [h] <;> rfl) hphase

/-- The new worker is attached to its list, and goes on to suspend itself. -/
theorem simulates_enterAttach {s' : Device} (hA : Abs s σ) (hI : σ.Inv) (t : Pid) (l : ListId)
    (hpc : s.pc t = .enterAttach l) (hs : s.advance t (.enterAttach l) = some s') :
    Simulates s' σ := by
  have hent : σ.phase t = .entering := by
    rw [hA.phase t, hpc]
    rfl
  have hplace := (hI.entering t).mpr hent
  obtain ⟨w, hw⟩ := hA.worker_of_place t (by simp [hplace])
  rw [Device.advance, hw, Option.some.injEq] at hs
  subst hs
  refine Abs.simulates (hA.storeWorker hI t t w _ _ hw ?_ (Or.inl ⟨rfl, by simp [hent]⟩)
    (by rw [hpc]; rfl) ?_ ?_)
  · exact .of_entering hplace (hA.worker t w hw).parent
  · rw [hpc]
    rfl
  · exact ⟨List.suffix_rfl, by simp [prepareSuspendContext], _, Function.update_self .., rfl,
      by simp [prepareSuspendContext]⟩

/-- A yielding worker goes back to the list it is attached to. -/
theorem simulates_yieldAdd {s' : Device} (hA : Abs s σ) (hI : σ.Inv) (t : Pid)
    (hpc : s.pc t = .yieldAdd) (hs : s.advance t .yieldAdd = some s') : Simulates s' σ := by
  have hok := hA.pc t
  rw [hpc] at hok
  obtain ⟨htask, w, hw, hidle⟩ := hok
  have hph : σ.phase t = .leaving := by
    rw [hA.phase t, hpc]
    rfl
  obtain ⟨l, hl⟩ := (hA.worker t w hw).attached (by simp [(hI.leaving t).mpr hph])
  have hadd : s' = s.addSelf t l .yield := by
    obtain ⟨x, k⟩ := w
    subst hl
    rw [Device.advance, hw, Option.some.injEq] at hs
    exact hs.symm
  subst hadd
  exact hA.insert hI t l .yield w (Or.inr hph) (Or.inr rfl) htask hw hl hidle

/-- `ums_worker_yield` and `ums_worker_end` find the scheduler that runs their caller. -/
theorem simulates_parent {s' : Device} (hA : Abs s σ) (hI : σ.Inv) (t : Pid) (k : Pid → Pc)
    (hw : (s.worker t).isSome = true) (hph : σ.phase t = .active)
    (hstart : (s.pc t).starting = false) (hk : ∀ p, (k p).starting = false)
    (hphase : ∀ p v, (k p).phase v = .yielding p) (hok : ∀ p, PcOk s t (k p))
    (hs : ∀ x p n l, s.worker t = some ⟨⟨x, .context p, n⟩, l⟩ → s' = s.setPc t (k p)) :
    Simulates s' σ := by
  obtain ⟨⟨⟨x, pa, n⟩, l⟩, hw⟩ := Option.isSome_iff_exists.mp hw
  obtain ⟨p, hp, -, hpar⟩ := hA.parent_under hI t _ hw hph
  obtain rfl : pa = .context p := hpar
  rw [hs x p n l hw]
  exact hA.readParent t p (k p) (by rw [hk, hstart]) hph hp (hphase p) (hok p)

/-- The wait loop of `do_dequeue_ums_complist_context`. -/
theorem simulates_dqTest {s' : Device} (hA : Abs s σ) (hI : σ.Inv) (t : Pid) (l : ListId)
    (hpc : s.pc t = .dqTest l) (hs : s.advance t (.dqTest l) = some s') : Simulates s' σ := by
  have hok := hA.pc t
  rw [hpc] at hok
  rw [Device.advance] at hs
  split at hs
  · cases hs
    refine Abs.simulates (hA.setTaskPc t _ _ (by rw [hpc]; rfl) ?_ (fun _ => rfl) hok)
    rw [hpc]
    rfl
  · rename_i hne
    cases hs
    exact hA.dequeue hI t l hpc hne

theorem simulates_dqWait {s' : Device} (hA : Abs s σ) (t : Pid) (l : ListId)
    (hpc : s.pc t = .dqWait l) (hs : s.advance t (.dqWait l) = some s') : Simulates s' σ := by
  have hok := hA.pc t
  rw [hpc] at hok
  rw [Device.advance] at hs
  split at hs
  · split at hs
    · cases hs
      exact hA.ret t _ _ (Or.inl (by simp)) (by rw [hpc]; rfl) (by rw [hpc]; rfl)
    · cases hs
  · cases hs
    exact (hA.setTaskPc t .running (.dqTest l) (by rw [hpc]; rfl) (by rw [hpc]; rfl)
      (fun _ => rfl) hok).simulates

/-- The wait loop of `do_dequeue_ums_sched_event`. -/
theorem simulates_evTest {s' : Device} (hA : Abs s σ) (t : Pid)
    (hpc : s.pc t = .evTest) (hs : s.advance t .evTest = some s') : Simulates s' σ := by
  have hok := hA.pc t
  rw [hpc] at hok
  obtain ⟨⟨x, l, q⟩, hy⟩ := Option.isSome_iff_exists.mp hok
  cases q with
  | nil =>
    rw [Device.advance, hy, Option.some.injEq] at hs
    subst hs
    exact (hA.setTaskPc t .interruptible .evWait (by rw [hpc]; rfl) (by rw [hpc]; rfl)
      (fun _ => rfl) hok).simulates
  | cons e q =>
    rw [Device.advance, hy, Option.some.injEq] at hs
    subst hs
    refine (hA.storeScheduler t t _ .evReturn hok (by rw [hpc]; rfl) (by rw [hpc]; rfl)
      ?_).simulates
    simp [PcOk, Device.setScheduler]

theorem simulates_evWait {s' : Device} (hA : Abs s σ) (t : Pid)
    (hpc : s.pc t = .evWait) (hs : s.advance t .evWait = some s') : Simulates s' σ := by
  have hok := hA.pc t
  rw [hpc] at hok
  obtain ⟨⟨x, l, q⟩, hy⟩ := Option.isSome_iff_exists.mp hok
  cases q with
  | nil =>
    simp only [Device.advance, hy] at hs
    split at hs
    · cases hs
      exact hA.ret t _ _ (Or.inl (by simp)) (by rw [hpc]; rfl) (by rw [hpc]; rfl)
    · cases hs
  | cons e q =>
    rw [Device.advance, hy, Option.some.injEq] at hs
    subst hs
    exact (hA.setTaskPc t .running .evTest (by rw [hpc]; rfl) (by rw [hpc]; rfl)
      (fun _ => rfl) hok).simulates

/-- Every step inside a call. -/
theorem simulates_advance {s' : Device} (hA : Abs s σ) (hI : σ.Inv) (t : Pid)
    (hs : s.advance t (s.pc t) = some s') : Simulates s' σ := by
  have hok := hA.pc t
  have hphase := hA.phase t
  -- a call that only returns
  have hdone (c : Call Pid) (hc : c.suspends = false)
      (hph : (s.pc t).phase (s.task t) = .active) (hst : (s.pc t).starting = false) :
      Simulates (s.ret t c .ok) σ :=
    hA.ret t c .ok (Or.inr hc) hst hph
  cases hpc : s.pc t with
  | user =>
    rw [hpc] at hs
    cases hs
  | enterAttach l =>
    rw [hpc] at hs
    exact simulates_enterAttach hA hI t l hpc hs
  | switching k ops =>
    rw [hpc] at hs
    cases ops with
    | nil => cases hs
    | cons op ops =>
      rw [Device.advance, Option.some.injEq] at hs
      subst hs
      exact simulates_switch hA hI t k op ops hpc
  | enterAdd l =>
    rw [hpc] at hs hok hphase
    rw [Device.advance, Option.some.injEq] at hs
    subst hs
    obtain ⟨htask, w, hw, hl, hidle⟩ := hok
    exact hA.insert hI t l .enterWorker w (Or.inl hphase) (Or.inl rfl) htask hw hl hidle
  | yieldAdd =>
    rw [hpc] at hs
    exact simulates_yieldAdd hA hI t hpc hs
  | schedule c =>
    rw [hpc, Device.advance] at hs
    rw [hpc] at hok
    split at hs
    · cases hs
      refine Abs.simulates (hA.setPc t _ (by rw [hpc]; rfl) ?_ ?_)
      · rw [hpc]
        rfl
      · cases c <;> exact hok
    · rename_i htask
      cases hs
      exact simulates_return hA t c (Or.inl hpc) (by cases h : s.task t <;> simp_all)
  | blocked c =>
    rw [hpc, Device.advance] at hs
    split at hs
    · rename_i htask
      cases hs
      exact simulates_return hA t c (Or.inr hpc) htask
    · cases hs
  | schedAttach l =>
    rw [hpc] at hs hok
    obtain ⟨y, hy⟩ := Option.isSome_iff_exists.mp hok
    rw [Device.advance, hy, Option.some.injEq] at hs
    subst hs
    refine Abs.simulates (hA.storeScheduler t t _ .startup hok (by rw [hpc]; rfl) ?_ ?_)
    · rw [hpc]
      rfl
    · simp [PcOk, Device.setScheduler]
  | startup =>
    rw [hpc, Device.advance, Option.some.injEq] at hs
    subst hs
    exact hA.start t hpc
  | startReturn =>
    rw [hpc, Device.advance, Option.some.injEq] at hs
    subst hs
    exact hdone _ rfl (by rw [hpc]; rfl) (by rw [hpc]; rfl)
  | dqTest l =>
    rw [hpc] at hs
    exact simulates_dqTest hA hI t l hpc hs
  | dqWait l =>
    rw [hpc] at hs
    exact simulates_dqWait hA t l hpc hs
  | dqReturn =>
    rw [hpc, Device.advance, Option.some.injEq] at hs
    subst hs
    exact hdone _ rfl (by rw [hpc]; rfl) (by rw [hpc]; rfl)
  | nextContext c =>
    rw [hpc, Device.advance, Option.some.injEq] at hs
    subst hs
    cases hr : σ.rest c with
    | nil => exact hA.close hI t c hpc hr
    | cons d ds => exact hA.next hI t c d ds hpc hr
  | yieldParent args =>
    rw [hpc] at hs hok
    refine simulates_parent hA hI t (.yieldPost · args) hok (hA.active hpc (fun _ => rfl))
      (by rw [hpc]; rfl) (fun _ => rfl) (fun _ _ => rfl) (fun _ => trivial) ?_
    intro x p n l hw
    rw [Device.advance, hw, Option.some.injEq] at hs
    exact hs.symm
  | yieldPost p args =>
    rw [hpc, Device.advance, Option.some.injEq] at hs
    rw [hpc] at hphase
    subst hs
    refine hA.post hI t p _ _ rfl hphase (fun _ => rfl) ?_
    simp [PcOk, prepareSwitchContext, prepareSuspendContext, wakeUpContext]
  | exitParent =>
    rw [hpc] at hs hok
    refine simulates_parent hA hI t .exitPost hok (hA.active hpc (fun _ => rfl))
      (by rw [hpc]; rfl) (fun _ => rfl) (fun _ _ => rfl) (fun _ => trivial) ?_
    intro x p n l hw
    rw [Device.advance, hw, Option.some.injEq] at hs
    exact hs.symm
  | exitPost p =>
    rw [hpc, Device.advance, Option.some.injEq] at hs
    rw [hpc] at hphase
    subst hs
    refine hA.post hI t p _ _ rfl hphase (fun _ => rfl) ?_
    simp [PcOk, wakeUpContext]
  | destroy =>
    rw [hpc, Device.advance, Option.some.injEq] at hs
    subst hs
    exact hA.destroy hI t hpc
  | evTest =>
    rw [hpc] at hs
    exact simulates_evTest hA t hpc hs
  | evWait =>
    rw [hpc] at hs
    exact simulates_evWait hA t hpc hs
  | evReturn =>
    rw [hpc, Device.advance, Option.some.injEq] at hs
    subst hs
    exact hdone _ rfl (by rw [hpc]; rfl) (by rw [hpc]; rfl)

/-- The beginning of every call. -/
theorem simulates_call {s' : Device} (hA : Abs s σ) (hI : σ.Inv) (a : DeviceAct)
    (hpc : s.pc a.caller = .user) (hprot : Protocol s a) (hs : s.call a = some s') :
    Simulates s' σ := by
  -- a call that finds nothing returns at once; any other moves its thread to its first place
  have hret (c : Call Pid) (r : Result) (hr : r ≠ .ok) : Simulates (s.ret a.caller c r) σ :=
    hA.ret a.caller c r (Or.inl hr) (by rw [hpc]; rfl) (by rw [hpc]; rfl)
  have hmove (c : Pc) (hc : ∀ v, c.phase v = .active) (hns : c.starting = false)
      (hok : PcOk s a.caller c) : Simulates (s.setPc a.caller c) σ := by
    refine (hA.setPc a.caller c (by rw [hns, hpc]; rfl) ?_ hok).simulates
    rw [hc, hpc]
    rfl
  cases a with
  | enterWorker t l node zero =>
    simp only [Device.call] at hs
    split at hs
    · cases hs
      exact hret _ _ (by simp)
    · rename_i hw
      cases hs
      exact hA.enter hI t l node _ hpc (by simpa using hw)
  | enterScheduler t l =>
    simp only [Device.call] at hs
    split at hs
    · cases hs
      exact hret _ _ (by simp)
    · rename_i hw
      cases hs
      exact (hA.register t l _ hpc (by simpa using hw)).simulates
  | exec t w =>
    simp only [Device.call] at hs
    split at hs
    · rename_i hfound
      cases hs
      exact hA.exec hI t w hpc hprot hfound.2
    · cases hs
      exact hret _ _ (by simp)
  | nextContext t c =>
    simp only [Device.call] at hs
    split at hs
    · cases hs
      exact hmove (.nextContext c) (fun _ => rfl) rfl hprot
    · cases hs
      exact hret _ _ (by simp)
  | dqcontext t l =>
    simp only [Device.call] at hs
    split at hs
    · rename_i hfound
      cases hs
      exact hmove (.dqTest l) (fun _ => rfl) rfl hfound
    · cases hs
      exact hret _ _ (by simp)
  | yield t args =>
    simp only [Device.call] at hs
    split at hs
    · rename_i hfound
      cases hs
      exact hmove (.yieldParent args) (fun _ => rfl) rfl hfound
    · cases hs
      exact hret _ _ (by simp)
  | exit t =>
    simp only [Device.call] at hs
    split at hs
    · rename_i hfound
      cases hs
      exact hmove .exitParent (fun _ => rfl) rfl hfound
    · cases hs
      exact hret _ _ (by simp)
  | dqevent t =>
    simp only [Device.call] at hs
    split at hs
    · rename_i hfound
      cases hs
      exact hmove .evTest (fun _ => rfl) rfl hfound
    · cases hs
      exact hret _ _ (by simp)
  | run t => cases hs
  | signal t => cases hs

/-- A signal that ends a wait for an event or a context. -/
theorem simulates_signal (hA : Abs s σ) (t : Pid) (hw : (s.pc t).waiting = true) :
    Simulates (s.setTask t .running) σ := by
  have hkeep : (s.setTask t .running).setPc t (s.pc t) = s.setTask t .running := by
    simp [Device.setPc, Device.setTask]
  rw [← hkeep]
  have hok := hA.pc t
  cases hpc : s.pc t with
  | dqWait l =>
    rw [hpc] at hok
    exact (hA.setTaskPc t _ _ (by rw [hpc]) (by rw [hpc]; rfl) (fun _ => rfl)
      (by exact hok)).simulates
  | evWait =>
    rw [hpc] at hok
    exact (hA.setTaskPc t _ _ (by rw [hpc]) (by rw [hpc]; rfl) (fun _ => rfl)
      (by exact hok)).simulates
  | _ =>
    rw [hpc] at hw
    cases hw

/-- Each step of the device is at most one step of the hand-over. -/
theorem simulates_step {s' : Device} (hA : Abs s σ) (hI : σ.Inv) (a : DeviceAct)
    (hprot : Protocol s a) (hcalm : Calm s a) (hs : s.step a = some s') : Simulates s' σ := by
  cases a with
  | run t => exact simulates_advance hA hI t hs
  | signal t =>
    simp only [Device.step] at hs
    split at hs
    · cases hs
      exact simulates_signal hA t hcalm
    · cases hs
  | _ =>
    simp only [Device.step] at hs
    split at hs
    · rename_i hpc
      exact simulates_call hA hI _ hpc hprot hs
    · cases hs

end Switch

/-- The states of runs that follow the protocol and have no stray signal. -/
def DeviceReachable : Device → Prop :=
  Transition.Reach Device.step (fun s a => Protocol s a ∧ Calm s a) Device.init

theorem abs_init : Abs Device.init Handoff.init where
  phase _ := rfl
  batches := rfl
  ready := rfl
  rings := by
    constructor
    · intro a l ha _
      cases a with
      | head k =>
        cases ha
        exact (ring_nil_iff _ _).mpr rfl
      | context c => cases ha
    · intro a x hx
      cases hx
    · intro a l ha
      cases a with
      | head k =>
        cases ha
        simp [Handoff.init]
      | context c => cases ha
    · intro a b l m x ha hb hxa hxb
      cases a with
      | head k =>
        cases b with
        | head j =>
          cases ha
          cases hb
          simp_all [Handoff.init]
        | context c => cases hb
      | context c => cases ha
  live _ := ⟨fun _ => rfl, fun _ => rfl⟩
  worker _ _ h := nomatch h
  pc _ := trivial
  started _ := rfl
  hist := rfl
  fault := rfl

/-- Every such state has a hand-over state behind it, which keeps the invariants. -/
theorem reachable_handoff {s : Device} (hr : DeviceReachable s) :
    ∃ σ, σ.Inv ∧ σ.HistInv Event.context ∧ Abs s σ := by
  apply hr.invariant (fun s => ∃ σ, Handoff.Inv σ ∧ σ.HistInv Event.context ∧ Abs s σ)
  · exact ⟨_, Handoff.inv_init, Handoff.histInv_init _, abs_init⟩
  · intro s a s' hσ hok hs
    obtain ⟨σ, hI, hH, hA⟩ := hσ
    obtain ⟨σ', hstep, hA'⟩ := simulates_step hA hI a hok.1 hok.2 hs
    cases hstep with
    | refl => exact ⟨σ, hI, hH, hA'⟩
    | single hstep => exact ⟨σ', hI.step hstep, hH.step hI hstep, hA'⟩

end LinuxUms
