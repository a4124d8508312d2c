import LinuxUms.DeviceMoves
import LinuxUms.InfoFiles

/-! What the records of schedulers and workers say about the threads: the member `state` of a
context, which the files `info` show. -/
namespace LinuxUms

open Handoff

/-- The record of a context. -/
def Device.context (s : Device) : ContextRef → Option UmsContext
  | .worker p => (s.worker p).map Worker.context
  | .scheduler p => (s.scheduler p).map Scheduler.context

def ContextRef.role : ContextRef → Role
  | .worker _ => .worker
  | .scheduler _ => .scheduler

/-- As what a thread is suspended in a call. -/
def Call.role {T : Type*} : Call T → Option Role
  | .enterWorker | .yield => some .worker
  | .exec _ => some .scheduler
  | _ => none

/-- As what a thread suspends itself in a switch. At its end a worker only wakes. -/
def Switching.role : Switching → Option Role
  | .enter _ | .yield _ => some .worker
  | .exec _ => some .scheduler
  | .exit _ => none

/-- The context that a switch wakes. -/
def Switching.target : Switching → Option ContextRef
  | .enter _ => none
  | .exec w => some (.worker w)
  | .yield p | .exit p => some (.scheduler p)

def Switching.ops : Switching → List SwitchOp
  | .enter _ => prepareSuspendContext
  | .exec _ | .yield _ => prepareSwitchContext
  | .exit _ => wakeUpContext

/-- As what a thread at the given place has suspended itself. -/
def Pc.suspendedAs (task : TaskState) : Pc → Option Role
  | .switching k ops => if .setIdle ∈ ops then none else k.role
  | .enterAdd _ | .yieldAdd => some .worker
  | .schedule c | .blocked c => if task = .running then none else c.role
  | _ => none

/-- The context that a thread at the given place has set running and not woken yet. -/
def Pc.raised : Pc → Option ContextRef
  | .switching k ops => if .setRunning ∈ ops then none else k.target
  | _ => none

/-- The thread of a context has suspended itself, and nobody is about to wake it. -/
def Device.suspended (s : Device) (c : ContextRef) : Prop :=
  (s.pc c.task).suspendedAs (s.task c.task) = some c.role ∧ ∀ u, (s.pc u).raised ≠ some c

/-- A thread has one context of each role. -/
theorem ContextRef.role_ne {r r' : ContextRef} (hne : r ≠ r') (ht : r.task = r'.task) :
    r.role ≠ r'.role := by
  cases r <;> cases r' <;> simp_all [ContextRef.task, ContextRef.role]

theorem Call.role_of_phase {task : TaskState} {a : Call Pid} {r : Role}
    (h : (a.phase task = .parked ∧ r = .worker) ∨
      ((∃ w, a.phase task = .execWait w) ∧ r = .scheduler)) :
    a.role = some r ∧ task = .interruptible := by
  cases task with
  | running =>
    rcases h with ⟨h, -⟩ | ⟨⟨w, h⟩, -⟩ <;> cases a <;> cases h
  | interruptible =>
    rcases h with ⟨h, rfl⟩ | ⟨⟨w, h⟩, rfl⟩ <;> cases a <;> cases h <;> exact ⟨rfl, rfl⟩

/-- A thread that is parked or waits for a worker is in `schedule()` or before it. -/
theorem Pc.schedule_of_phase {task : TaskState} {c : Pc} {r : Role}
    (h : (c.phase task = .parked ∧ r = .worker) ∨
      ((∃ w, c.phase task = .execWait w) ∧ r = .scheduler)) :
    ∃ a, (c = .schedule a ∨ c = .blocked a) ∧ a.role = some r ∧ task = .interruptible := by
  cases c with
  | schedule a => exact ⟨a, Or.inl rfl, Call.role_of_phase h⟩
  | blocked a => exact ⟨a, Or.inr rfl, Call.role_of_phase h⟩
  | switching k ops => rcases h with ⟨h, -⟩ | ⟨⟨w, h⟩, -⟩ <;> cases k <;> cases h
  | _ => rcases h with ⟨h, -⟩ | ⟨⟨w, h⟩, -⟩ <;> cases h

namespace Device

variable {s s' : Device} {t u : Pid} {σ : Handoff Pid ListId Event}

theorem context_congr (hw : s'.worker = s.worker) (hx : s'.scheduler = s.scheduler)
    (c : ContextRef) : s'.context c = s.context c := by
  cases c with
  | worker p => rw [context, context, hw]
  | scheduler p => rw [context, context, hx]

theorem context_setWorker (s : Device) (p : Pid) (v : Option Worker) (c : ContextRef) :
    (s.setWorker p v).context c =
      if c = .worker p then v.map Worker.context else s.context c := by
  cases c with
  | worker q =>
    show (Function.update s.worker p v q).map _ = _
    by_cases hq : q = p
    · rw [hq, Function.update_self, if_pos rfl]
    · rw [Function.update_of_ne hq, if_neg (by simpa using hq)]
      rfl
  | scheduler q => rfl

theorem context_setScheduler (s : Device) (p : Pid) (x : Scheduler) (c : ContextRef) :
    (s.setScheduler p x).context c =
      if c = .scheduler p then some x.context else s.context c := by
  cases c with
  | worker q => rfl
  | scheduler q =>
    show (Function.update s.scheduler p (some x) q).map _ = _
    by_cases hq : q = p
    · rw [hq, Function.update_self, if_pos rfl]
      rfl
    · rw [Function.update_of_ne hq, if_neg (by simpa using hq)]
      rfl

/-- A store through a pointer to a context, which fails if there is no record. -/
theorem context_modifyContext (s : Device) (c : ContextRef) (f : UmsContext → UmsContext)
    (c' : ContextRef) :
    (s.modifyContext c f).context c' =
      if c' = c then (s.context c').map f else s.context c' := by
  have hself (h : s.context c = none) : s.context c' =
      if c' = c then (s.context c').map f else s.context c' := by
    split
    · rename_i he
      rw [he, h]
      rfl
    · rfl
  have hold {v : Option UmsContext} (h : v = (s.context c).map f) :
      (if c' = c then v else s.context c') =
        if c' = c then (s.context c').map f else s.context c' := by
    split
    · rename_i he
      rw [he, h]
    · rfl
  cases c with
  | worker p =>
    cases hw : s.worker p with
    | none =>
      have hcrash : s.modifyContext (.worker p) f = s.crash := by rw [modifyContext, hw]
      rw [hcrash, context_congr (s := s) rfl rfl]
      exact hself (by rw [context, hw]; rfl)
    | some w =>
      rw [modifyContext_worker f hw, context_setWorker]
      exact hold (by rw [context, hw]; rfl)
  | scheduler p =>
    cases hx : s.scheduler p with
    | none =>
      have hcrash : s.modifyContext (.scheduler p) f = s.crash := by rw [modifyContext, hx]
      rw [hcrash, context_congr (s := s) rfl rfl]
      exact hself (by rw [context, hx]; rfl)
    | some x =>
      rw [modifyContext_scheduler f hx, context_setScheduler]
      exact hold (by rw [context, hx]; rfl)

/-- A store to another member of a worker. -/
theorem context_keep_worker {p : Pid} {w w' : Worker} (hw : s.worker p = some w)
    (hset : s'.worker = Function.update s.worker p (some w')) (hsame : s'.scheduler = s.scheduler)
    (h : w'.context = w.context) (c : ContextRef) : s'.context c = s.context c := by
  rw [context_congr (s := s.setWorker p (some w')) hset hsame c, context_setWorker]
  split
  · rename_i hc
    rw [hc, context, hw]
    exact congrArg some h
  · rfl

/-- A store to another member of a scheduler. -/
theorem context_keep_scheduler {p : Pid} {x x' : Scheduler} (hx : s.scheduler p = some x)
    (hset : s'.scheduler = Function.update s.scheduler p (some x')) (hsame : s'.worker = s.worker)
    (h : x'.context = x.context) (c : ContextRef) : s'.context c = s.context c := by
  rw [context_congr (s := s.setScheduler p x') hsame hset c, context_setScheduler]
  split
  · rename_i hc
    rw [hc, context, hx]
    exact congrArg some h
  · rfl

/-- The end of a worker. -/
theorem context_removed (s : Device) (t : Pid) (c : ContextRef) :
    ((s.setWorker t none).ret t .exit .ok).context c =
      if c = .worker t then none else s.context c := by
  have hret : ((s.setWorker t none).ret t .exit .ok).context c = (s.setWorker t none).context c :=
    context_congr rfl rfl c
  rw [hret, context_setWorker]
  rfl

theorem switching_ops (hA : Abs s σ) {k : Switching} {ops : List SwitchOp}
    (hpc : s.pc t = .switching k ops) : ops <:+ k.ops := by
  have hok := hA.pc t
  rw [hpc] at hok
  cases k <;> exact hok.1

/-- The thread that a switch wakes has suspended itself and is in `schedule()` or before it. -/
theorem target_parked (hA : Abs s σ) (hI : σ.Inv) {k : Switching} {ops : List SwitchOp}
    {c : ContextRef} (hpc : s.pc t = .switching k ops) (hk : k.target = some c) :
    ∃ a, (s.pc c.task = .schedule a ∨ s.pc c.task = .blocked a) ∧ a.role = some c.role ∧
      s.task c.task = .interruptible := by
  have hphase := hA.phase t
  rw [hpc] at hphase
  have hwaits {p : Pid} (hp : σ.phase t = .posted p) : σ.phase p = .execWait t :=
    hI.execWait_of_under (hI.posted t p hp) (by rw [hp]; simp)
  apply Pc.schedule_of_phase
  rw [← hA.phase]
  cases k with
  | enter l => cases hk
  | exec w =>
    obtain rfl := Option.some.inj hk
    exact Or.inl ⟨hI.parked_of_execPre hphase, rfl⟩
  | yield p | exit p =>
    obtain rfl := Option.some.inj hk
    exact Or.inr ⟨⟨t, hwaits hphase⟩, rfl⟩

/-- A context that is about to be woken has suspended itself. -/
theorem suspendedAs_of_raised (hA : Abs s σ) (hI : σ.Inv) {c : ContextRef}
    (h : (s.pc u).raised = some c) :
    (s.pc c.task).suspendedAs (s.task c.task) = some c.role := by
  cases hpc : s.pc u with
  | switching k ops =>
    rw [hpc, Pc.raised] at h
    split at h
    · cases h
    · obtain ⟨a, ha, hr, ht⟩ := target_parked hA hI hpc h
      rcases ha with ha | ha <;> rw [ha, Pc.suspendedAs, ht] <;> exact hr
  | _ =>
    rw [hpc] at h
    cases h

/-- The state of a context is what its thread is doing. -/
def StatesShown (s : Device) : Prop :=
  ∀ c x, s.context c = some x → (x.state = .idle ↔ s.suspended c)

theorem suspendedAs_congr {c : Pc} (hpc : s'.pc = Function.update s.pc t c)
    (hown : c.suspendedAs (s'.task t) = (s.pc t).suspendedAs (s.task t)) (u : Pid)
    (hu : u = t ∨ s'.task u = s.task u) :
    (s'.pc u).suspendedAs (s'.task u) = (s.pc u).suspendedAs (s.task u) := by
  rw [hpc]
  by_cases hut : u = t
  · subst hut
    rw [Function.update_self]
    exact hown
  · rw [Function.update_of_ne hut, hu.resolve_left hut]

theorem raised_congr {c : Pc} (hpc : s'.pc = Function.update s.pc t c) {r : ContextRef}
    (h : c.raised ≠ some r ↔ (s.pc t).raised ≠ some r) :
    (∀ u, (s'.pc u).raised ≠ some r) ↔ ∀ u, (s.pc u).raised ≠ some r := by
  have hu (u : Pid) : (s'.pc u).raised ≠ some r ↔ (s.pc u).raised ≠ some r := by
    rw [hpc]
    by_cases hut : u = t
    · rw [hut, Function.update_self]
      exact h
    · rw [Function.update_of_ne hut]
  exact forall_congr' hu

/-- Thread `t` goes on to `c`, and nobody is suspended or woken by that. -/
theorem StatesShown.go (h : StatesShown s) {c : Pc} (hpc : s'.pc = Function.update s.pc t c)
    (hctx : ∀ r x', s'.context r = some x' → (∃ x, s.context r = some x ∧ x'.state = x.state) ∨
      x'.state = .running ∧ r.task = t ∧ c.suspendedAs (s'.task t) = none)
    (hown : c.suspendedAs (s'.task t) = (s.pc t).suspendedAs (s.task t))
    (hraise : c.raised = (s.pc t).raised) (hothers : ∀ u, u ≠ t → s'.task u = s.task u) :
    StatesShown s' := by
  intro r x' hx'
  have hself : (s'.pc r.task).suspendedAs (s'.task r.task) =
      (s.pc r.task).suspendedAs (s.task r.task) :=
    suspendedAs_congr hpc hown _ ((eq_or_ne _ _).imp_right (hothers _))
  have hsus : s'.suspended r ↔ s.suspended r := by
    rw [suspended, suspended, hself, raised_congr hpc (by rw [hraise])]
  rcases hctx r x' hx' with ⟨x, hx, hst⟩ | ⟨hst, ht, hnone⟩
  · rw [hsus, hst]
    exact h r x hx
  · -- the record of a thread that enters
    rw [hst]
    constructor
    · intro hi
      cases hi
    · rintro ⟨hr, -⟩
      rw [hself, ht, ← hown, hnone] at hr
      cases hr

/-- Thread `t` sets its own context `r₀` idle. -/
theorem StatesShown.idle (h : StatesShown s) (hA : Abs s σ) (hI : σ.Inv) {r₀ : ContextRef}
    (hr₀ : r₀.task = t) {c : Pc} (hpc : s'.pc = Function.update s.pc t c)
    (hctx : ∀ r, s'.context r =
      if r = r₀ then (s.context r).map (fun x => { x with state := .idle }) else s.context r)
    (htask : s'.task = s.task) (hold : (s.pc t).suspendedAs (s.task t) = none)
    (hnew : c.suspendedAs (s.task t) = some r₀.role) (hraise : c.raised = none)
    (hraise' : (s.pc t).raised = none) : StatesShown s' := by
  have hraised (r : ContextRef) :
      (∀ u, (s'.pc u).raised ≠ some r) ↔ ∀ u, (s.pc u).raised ≠ some r :=
    raised_congr hpc (by rw [hraise, hraise'])
  have hself : (s'.pc t).suspendedAs (s'.task t) = some r₀.role := by
    rw [hpc, htask, Function.update_self]
    exact hnew
  intro r x' hx'
  rw [hctx r] at hx'
  split at hx'
  · rename_i hr
    subst hr
    obtain ⟨x, -, rfl⟩ := Option.map_eq_some_iff.mp hx'
    refine iff_of_true rfl ⟨by rw [hr₀]; exact hself, (hraised r).mpr fun u hu => ?_⟩
    have hsus := suspendedAs_of_raised hA hI hu
    rw [hr₀, hold] at hsus
    cases hsus
  · rename_i hr
    rw [h r x' hx', suspended, suspended, hraised]
    by_cases ht : r.task = t
    · -- the other context of `t`
      rw [ht, hself, hold]
      have hrole := ContextRef.role_ne hr (ht.trans hr₀.symm)
      simp [hrole.symm]
    · rw [hpc, htask, Function.update_of_ne ht]

/-- Thread `t` sets the context `r₁` running, before it wakes it. -/
theorem StatesShown.raise (h : StatesShown s) {r₁ : ContextRef} {c : Pc}
    (hpc : s'.pc = Function.update s.pc t c)
    (hctx : ∀ r, s'.context r =
      if r = r₁ then (s.context r).map (fun x => { x with state := .running }) else s.context r)
    (htask : s'.task = s.task)
    (hown : c.suspendedAs (s'.task t) = (s.pc t).suspendedAs (s.task t))
    (hraise : c.raised = some r₁) (hraise' : (s.pc t).raised = none) : StatesShown s' := by
  intro r x' hx'
  rw [hctx r] at hx'
  split at hx'
  · rename_i hr
    subst hr
    obtain ⟨x, -, rfl⟩ := Option.map_eq_some_iff.mp hx'
    refine iff_of_false (by simp) fun hsus => hsus.2 t ?_
    rw [hpc, Function.update_self]
    exact hraise
  · rename_i hr
    have hne : c.raised ≠ some r ↔ (s.pc t).raised ≠ some r := by
      rw [hraise, hraise']
      simpa using Ne.symm hr
    rw [h r x' hx', suspended, suspended, raised_congr hpc hne,
      suspendedAs_congr hpc hown _ (Or.inr (by rw [htask]))]

/-- Thread `t` wakes the thread of the context `r₁`. -/
theorem StatesShown.wake (h : StatesShown s) {r₁ : ContextRef} {c : Pc} {a : Call Pid}
    (hpc : s'.pc = Function.update s.pc t c) (hctx : ∀ r, s'.context r = s.context r)
    (htask : s'.task = Function.update s.task r₁.task .running)
    (hold : (s.pc t).raised = some r₁) (hnew : c.raised = none)
    (hown : c.suspendedAs (s.task t) = (s.pc t).suspendedAs (s.task t)) (ht : r₁.task ≠ t)
    (hparked : s.pc r₁.task = .schedule a ∨ s.pc r₁.task = .blocked a)
    (hrole : a.role = some r₁.role) (hint : s.task r₁.task = .interruptible) : StatesShown s' := by
  intro r x hx
  rw [hctx r] at hx
  rw [h r x hx]
  by_cases hr : r.task = r₁.task
  · -- the thread that is woken
    refine iff_of_false (fun hsus => ?_) (fun hsus => ?_)
    · by_cases hrr : r = r₁
      · rw [hrr] at hsus
        exact hsus.2 t hold
      · have hsus' := hsus.1
        rw [hr, hint] at hsus'
        have hself : (s.pc r₁.task).suspendedAs .interruptible = some r₁.role := by
          rcases hparked with hp | hp <;> rw [hp] <;> exact hrole
        rw [hself] at hsus'
        exact ContextRef.role_ne hrr hr (Option.some.inj hsus').symm
    · have hsus' := hsus.1
      rw [hpc, htask, hr, Function.update_of_ne ht, Function.update_self] at hsus'
      rcases hparked with hp | hp <;> rw [hp] at hsus' <;> cases hsus'
  · have hne : c.raised ≠ some r ↔ (s.pc t).raised ≠ some r := by
      rw [hold, hnew]
      simp only [ne_eq, reduceCtorEq, not_false_eq_true, Option.some.injEq, true_iff]
      rintro rfl
      exact hr rfl
    have hother : s'.task r.task = s.task r.task := by
      rw [htask, Function.update_of_ne hr]
    have htt : s'.task t = s.task t := by
      rw [htask, Function.update_of_ne ht.symm]
    rw [suspended, suspended, raised_congr hpc hne,
      suspendedAs_congr hpc (by rw [htt]; exact hown) _ (Or.inr hother)]

/-- A store to another member of a context. -/
theorem state_modifyContext {c r : ContextRef} {f : UmsContext → UmsContext} {x' : UmsContext}
    (h : (s.modifyContext c f).context r = some x') (hf : ∀ x, (f x).state = x.state) :
    ∃ x, s.context r = some x ∧ x'.state = x.state := by
  rw [context_modifyContext] at h
  split at h
  · obtain ⟨x, hx, rfl⟩ := Option.map_eq_some_iff.mp h
    exact ⟨x, hx, hf x⟩
  · exact ⟨x', h, rfl⟩

theorem stepSwitch_pc (s : Device) (t : Pid) (k : Switching) (op : SwitchOp)
    (ops : List SwitchOp) : (s.stepSwitch t k op ops).pc =
      Function.update s.pc t (if ops = [] then k.after else .switching k ops) :=
  congrArg (Function.update · t _) (beside_switchOp s _ _ op).pc

theorem stepSwitch_context (s : Device) (t : Pid) (k : Switching) (op : SwitchOp)
    (ops : List SwitchOp) (r : ContextRef) : (s.stepSwitch t k op ops).context r =
      (s.switchOp (k.contexts t).1 (k.contexts t).2 op).context r :=
  context_congr rfl rfl r

/-- `prepare_switch_context`. -/
theorem StatesShown.switch (h : StatesShown s) (hA : Abs s σ) (hI : σ.Inv) {k : Switching}
    {op : SwitchOp} {ops : List SwitchOp} (hpc : s.pc t = .switching k (op :: ops))
    (hk : (∃ w, k = .exec w) ∨ ∃ p, k = .yield p) : StatesShown (s.stepSwitch t k op ops) := by
  have hsuf : op :: ops <:+ prepareSwitchContext := by
    have hsuf := switching_ops hA hpc
    rcases hk with ⟨w, rfl⟩ | ⟨p, rfl⟩ <;> exact hsuf
  obtain ⟨hsrc, hrole, htgt⟩ : (k.contexts t).1.task = t ∧
      k.role = some (k.contexts t).1.role ∧ k.target = some (k.contexts t).2 := by
    rcases hk with ⟨w, rfl⟩ | ⟨p, rfl⟩ <;> exact ⟨rfl, rfl, rfl⟩
  have hpc' := stepSwitch_pc s t k op ops
  have hctx := stepSwitch_context s t k op ops
  rcases suffix_prepareSwitchContext hsuf with ⟨rfl, rfl⟩ | ⟨rfl, rfl⟩ | ⟨rfl, rfl⟩ | ⟨rfl, rfl⟩ |
    ⟨rfl, rfl⟩ | ⟨rfl, rfl⟩
  · refine h.go hpc' (fun r x' hx => Or.inl (state_modifyContext
      ((hctx r).symm.trans hx) (fun _ => rfl))) (by rw [hpc]; rfl) (by rw [hpc]; rfl)
      (fun u _ => congrFun (modifyContext_task s _ _) u)
  · refine h.go hpc' (fun r x' hx => Or.inl (state_modifyContext
      ((hctx r).symm.trans hx) (fun _ => rfl))) (by rw [hpc]; rfl) (by rw [hpc]; rfl)
      (fun u _ => congrFun (modifyContext_task s _ _) u)
  · exact h.idle hA hI hsrc hpc' (fun r => (hctx r).trans (context_modifyContext s _ _ r))
      (modifyContext_task s _ _) (by rw [hpc]; rfl) hrole rfl (by rw [hpc]; rfl)
  · refine h.go hpc' (fun r x' hx => Or.inl ⟨x', (hctx r).symm.trans hx, rfl⟩)
      (by rw [hpc]; rfl) (by rw [hpc]; rfl)
      (fun u hu => Function.update_of_ne (by rw [hsrc]; exact hu) _ _)
  · exact h.raise hpc' (fun r => (hctx r).trans (context_modifyContext s _ _ r))
      (modifyContext_task s _ _) (by rw [hpc]; rfl) htgt (by rw [hpc]; rfl)
  · obtain ⟨a, ha, hr, ht⟩ := target_parked hA hI hpc htgt
    have hne : (k.contexts t).2.task ≠ t := by
      intro he
      rw [he, hpc] at ha
      rcases ha with ha | ha <;> cases ha
    refine h.wake hpc' (fun r => (hctx r).trans (context_congr rfl rfl r)) rfl
      (by rw [hpc]; exact htgt) ?_ ?_ hne ha hr ht
    · rcases hk with ⟨w, rfl⟩ | ⟨p, rfl⟩ <;> rfl
    · have hok := hA.pc t
      rw [hpc] at hok ⊢
      rcases hk with ⟨w, rfl⟩ | ⟨p, rfl⟩
      · show (Pc.schedule (.exec w)).suspendedAs (s.task t) = some .scheduler
        rw [Pc.suspendedAs, hok.2.2.2.2 (by simp)]
        rfl
      · rfl

/-- `prepare_suspend_context` of a worker that enters, and `wake_up_context` of one that ends. -/
theorem StatesShown.switching (h : StatesShown s) (hA : Abs s σ) (hI : σ.Inv) {k : Switching}
    {op : SwitchOp} {ops : List SwitchOp} (hpc : s.pc t = .switching k (op :: ops)) :
    StatesShown (s.stepSwitch t k op ops) := by
  have hpc' := stepSwitch_pc s t k op ops
  have hctx := stepSwitch_context s t k op ops
  have hsuf := switching_ops hA hpc
  cases k with
  | exec w => exact h.switch hA hI hpc (Or.inl ⟨w, rfl⟩)
  | yield p => exact h.switch hA hI hpc (Or.inr ⟨p, rfl⟩)
  | enter l =>
    rcases suffix_prepareSuspendContext hsuf with ⟨rfl, rfl⟩ | ⟨rfl, rfl⟩
    · exact h.idle (t := t) hA hI rfl hpc' (fun r => (hctx r).trans (context_modifyContext s _ _ r))
        (modifyContext_task s _ _) (by rw [hpc]; rfl) rfl rfl (by rw [hpc]; rfl)
    · exact h.go hpc' (fun r x' hx => Or.inl ⟨x', (hctx r).symm.trans hx, rfl⟩)
        (by rw [hpc]; rfl) (by rw [hpc]; rfl) (fun u hu => Function.update_of_ne hu _ _)
  | exit p =>
    rcases suffix_wakeUpContext hsuf with ⟨rfl, rfl⟩ | ⟨rfl, rfl⟩
    · exact h.raise hpc' (fun r => (hctx r).trans (context_modifyContext s _ _ r))
        (modifyContext_task s _ _) (by rw [hpc]; rfl) rfl (by rw [hpc]; rfl)
    · obtain ⟨a, ha, hr, ht⟩ := target_parked hA hI hpc rfl
      have hne : p ≠ t := by
        rintro rfl
        rcases ha with ha | ha <;> cases hpc.symm.trans ha
      exact h.wake hpc' (fun r => (hctx r).trans (context_congr rfl rfl r)) rfl (by rw [hpc]; rfl)
        rfl (by rw [hpc]; rfl) hne ha hr ht

/-- Thread `t` goes on, and no record changes but for members that are not shown. -/
theorem StatesShown.keep (h : StatesShown s) {c : Pc} (hpc : s'.pc = Function.update s.pc t c)
    (hctx : ∀ r, s'.context r = s.context r)
    (hown : c.suspendedAs (s'.task t) = (s.pc t).suspendedAs (s.task t))
    (hraise : c.raised = (s.pc t).raised) (hothers : ∀ u, u ≠ t → s'.task u = s.task u) :
    StatesShown s' :=
  h.go hpc (fun r x' hx => Or.inl ⟨x', (hctx r).symm.trans hx, rfl⟩) hown hraise hothers

/-- A step inside a call. -/
theorem StatesShown.move (h : StatesShown s) (hA : Abs s σ) (hI : σ.Inv)
    (hm : s.Move t (s.pc t) s') : StatesShown s' := by
  have hok := hA.pc t
  generalize hpc : s.pc t = c at hm hok
  have hgo {c' : Pc} (hpc' : s'.pc = Function.update s.pc t c')
      (hctx : ∀ r, s'.context r = s.context r)
      (hown : c'.suspendedAs (s'.task t) = c.suspendedAs (s.task t)) (hraise : c'.raised = c.raised)
      (hothers : ∀ u, u ≠ t → s'.task u = s.task u) : StatesShown s' :=
    h.keep hpc' hctx (by rw [hpc]; exact hown) (by rw [hpc]; exact hraise) hothers
  cases hm with
  | switching k op ops => exact h.switching hA hI hpc
  | enterAttach l w hw =>
    exact hgo rfl (context_keep_worker hw rfl rfl rfl) rfl rfl (fun _ _ => rfl)
  | enterAdd l H hadd =>
    refine hgo rfl (context_congr rfl rfl) ?_ rfl (fun _ _ => rfl)
    show (Pc.schedule .enterWorker).suspendedAs (s.task t) = some .worker
    rw [Pc.suspendedAs, hok.1]
    rfl
  | yieldAdd x l H hw hadd =>
    refine hgo rfl (context_congr rfl rfl) ?_ rfl (fun _ _ => rfl)
    show (Pc.schedule .yield).suspendedAs (s.task t) = some .worker
    rw [Pc.suspendedAs, hok.1]
    rfl
  | awake a ht | wake a ht =>
    refine hgo rfl (context_congr rfl rfl) ?_ rfl (fun _ _ => rfl)
    rw [ht]
    rfl
  | schedAttach l x hx | startup x hx | yieldPost p args x hx | exitPost p x hx
  | evTake x e q hx =>
    exact hgo rfl (context_keep_scheduler hx rfl rfl rfl) rfl rfl (fun _ _ => rfl)
  | destroy =>
    -- the record of the worker is gone, and its thread is suspended nowhere
    refine h.go rfl (fun r x' hx' => Or.inl ⟨x', ?_, rfl⟩) (by rw [hpc]; rfl) (by rw [hpc]; rfl)
      (fun _ _ => rfl)
    rw [context_removed] at hx'
    split at hx'
    · cases hx'
    · exact hx'
  | dqSleep | dqWoken | evSleep | evWoken =>
    exact hgo rfl (context_congr rfl rfl) rfl rfl (fun u hu => Function.update_of_ne hu _ _)
  | _ => exact hgo rfl (context_congr rfl rfl) rfl rfl (fun _ _ => rfl)

/-- A call changes no record; a thread that enters gets a new one. -/
theorem context_of_call {a : DeviceAct} (hcall : s.call a = some s') (r : ContextRef) :
    s'.context r = s.context r ∨ s.context r = none ∧ r.task = a.caller ∧
      ∃ x, s'.context r = some x ∧ x.state = .running ∧ x.switches = 0 := by
  cases a with
  | enterWorker t l node zero =>
    rw [call] at hcall
    split at hcall
    · cases hcall
      exact Or.inl (context_congr rfl rfl r)
    · rename_i hnone
      -- the other stores of the call leave the tables as they are
      have hset : s'.context r = (s.setWorker t
          (some ⟨⟨.running, if zero then .null else .junk, 0⟩, none⟩)).context r := by
        cases hcall
        exact context_congr rfl rfl r
      rw [hset, context_setWorker]
      split
      · rename_i hr
        rw [hr, context, Option.not_isSome_iff_eq_none.mp hnone]
        exact Or.inr ⟨rfl, rfl, _, rfl, rfl, rfl⟩
      · exact Or.inl rfl
  | enterScheduler t l =>
    rw [call] at hcall
    split at hcall
    · cases hcall
      exact Or.inl (context_congr rfl rfl r)
    · rename_i hnone
      have hset : s'.context r =
          (s.setScheduler t ⟨⟨.running, .junk, 0⟩, none, []⟩).context r := by
        cases hcall
        exact context_congr rfl rfl r
      rw [hset, context_setScheduler]
      split
      · rename_i hr
        rw [hr, context, Option.not_isSome_iff_eq_none.mp hnone]
        exact Or.inr ⟨rfl, rfl, _, rfl, rfl, rfl⟩
      · exact Or.inl rfl
  | run | signal => cases hcall
  | _ =>
    rw [call] at hcall
    split at hcall <;> cases hcall <;> exact Or.inl (context_congr rfl rfl r)

/-- A thread goes from user code to a place where it is not suspended and has woken nobody. -/
theorem pc_of_call_shown {a : DeviceAct} (hcall : s.call a = some s') :
    ∃ c, s'.pc = Function.update s.pc a.caller c ∧ (∀ v, c.suspendedAs v = none) ∧
      c.raised = none := by
  cases a with
  | run | signal => cases hcall
  | _ =>
    rw [call] at hcall
    split at hcall <;> cases hcall <;> exact ⟨_, rfl, fun _ => rfl, rfl⟩

theorem StatesShown.call (h : StatesShown s) {a : DeviceAct} (hpc : s.pc a.caller = .user)
    (hcall : s.call a = some s') : StatesShown s' := by
  obtain ⟨c, hpc', hnone, hraise⟩ := pc_of_call_shown hcall
  refine h.go hpc' (fun r x' hx' => ?_) (by rw [hnone, hpc]; rfl) (by rw [hraise, hpc]; rfl)
    (fun u _ => congrFun (call_task hcall) u)
  rcases context_of_call hcall r with hsame | ⟨-, ht, x, hx, hst, -⟩
  · exact Or.inl ⟨x', hsame.symm.trans hx', rfl⟩
  · obtain rfl := Option.some.inj (hx.symm.trans hx')
    exact Or.inr ⟨hst, ht, hnone _⟩

/-- A signal to a thread that waits for contexts or events. -/
theorem StatesShown.signal (h : StatesShown s) (hw : (s.pc t).waiting = true) :
    StatesShown (s.setTask t .running) := by
  have hnone (v : TaskState) : (s.pc t).suspendedAs v = none := by
    cases hpc : s.pc t <;> rw [hpc] at hw <;> first | rfl | cases hw
  refine h.keep (t := t) (Function.update_eq_self t s.pc).symm (context_congr rfl rfl)
    ?_ rfl (fun u hu => Function.update_of_ne hu _ _)
  rw [hnone, hnone]

theorem statesShown_of_reachable (hr : DeviceReachable s) : StatesShown s := by
  have hboth : DeviceReachable s ∧ StatesShown s := by
    apply hr.invariant (fun s => DeviceReachable s ∧ StatesShown s) ⟨.refl, fun c x hx => ?_⟩
    · intro s a s' hI hok hs
      have hr' : DeviceReachable s' := .tail a hI.1 hok hs
      refine ⟨hr', ?_⟩
      obtain ⟨σ, hσ, -, hA⟩ := reachable_handoff hI.1
      rcases step_cases hs with ⟨t, rfl⟩ | ⟨t, rfl⟩ | ⟨hpc, hcall⟩
      · exact hI.2.move hA hσ (move_of_run hs (fault_of_reachable hr'))
      · obtain ⟨-, rfl⟩ := step_signal hs
        exact hI.2.signal hok.2
      · exact hI.2.call hpc hcall
    · cases c <;> cases hx
  exact hboth.2

end Device

theorem getContextState_eq_idle (v : ContextState) :
    Info.getContextState v = "I (idle)".toList ↔ v = .idle := by
  cases v <;> decide +kernel

theorem getContextState_eq_running (v : ContextState) :
    Info.getContextState v = "R (running)".toList ↔ v ≠ .idle := by
  cases v <;> decide +kernel

/-- In every run that follows the protocol, the file `info` of a scheduler or worker shows it idle
exactly while its thread has suspended itself and nobody is about to wake it. -/
theorem info_shows_suspension {s : Device} (hr : DeviceReachable s) {c : ContextRef}
    {x : UmsContext} (hx : s.context c = some x) :
    (Info.getContextState x.state = "I (idle)".toList ↔ s.suspended c) ∧
      (Info.getContextState x.state = "R (running)".toList ↔ ¬s.suspended c) := by
  have hshown : x.state = .idle ↔ s.suspended c := Device.statesShown_of_reachable hr c x hx
  rw [getContextState_eq_idle, getContextState_eq_running, Ne, hshown]
  exact ⟨Iff.rfl, Iff.rfl⟩

/-- A worker yields, runs again and yields once more. -/
def yieldTwice : List DeviceAct :=
  let k (n : ℕ) (t : Pid) : List DeviceAct := List.replicate n (.run t)
  List.flatten [.enterScheduler 10 7 :: k 3 10, .enterWorker 1 7 ⟨.null, .null⟩ true :: k 5 1,
    .dqcontext 10 7 :: k 2 10, .nextContext 10 1 :: k 1 10, .exec 10 1 :: k 7 10,
    k 1 1, .yield 1 5 :: k 10 1, k 1 10,
    .dqcontext 10 7 :: k 2 10, .nextContext 10 1 :: k 1 10, .exec 10 1 :: k 7 10,
    k 1 1, .yield 1 6 :: k 3 1]

theorem info_shows_suspension_yieldTwice :
    ∃ s x, (DeviceReachable s ∧ s.context (.scheduler 10) = some x ∧ s.pc 10 = .blocked (.exec 1)) ∧
      (Info.getContextState x.state = "I (idle)".toList ↔ s.suspended (.scheduler 10)) ∧
      (Info.getContextState x.state = "R (running)".toList ↔ ¬s.suspended (.scheduler 10)) := by
  obtain ⟨s, hr, hx, hpc⟩ := Transition.Reach.exists_of_run Device.step
    (fun s a => Protocol s a ∧ Calm s a) Device.init yieldTwice
    (fun s => s.context (.scheduler 10) = some ⟨.idle, .context 1, 2⟩ ∧
      s.pc 10 = .blocked (.exec 1)) (by decide +kernel)
  exact ⟨s, _, ⟨hr, hx, hpc⟩, info_shows_suspension hr hx⟩

namespace Device

variable {s : Device} {σ : Handoff Pid ListId Event}

/-- A worker that has entered and is in user code has a scheduler that waits for it. -/
theorem execWait_of_user (hA : Abs s σ) (hI : σ.Inv) {w : Pid} {x : Worker}
    (hw : s.worker w = some x) (hpc : s.pc w = .user) :
    ∃ p, σ.phase p = .execWait w ∧ x.context.parent = .context p := by
  have hactive : σ.phase w = .active := by
    rw [hA.phase, hpc]
    rfl
  -- every other place asks for another phase
  cases hplace : σ.place w with
  | under p =>
    have hwait := hI.execWait_of_under hplace (by rw [hactive]; simp)
    exact ⟨p, hwait, (hA.worker w x hw).parent p hwait⟩
  | off =>
    rw [(hA.live w).mpr hplace] at hw
    cases hw
  | entering => cases hactive.symm.trans ((hI.entering w).mp hplace)
  | leaving => cases hactive.symm.trans ((hI.leaving w).mp hplace)
  | queued l => cases hactive.symm.trans (hI.queued w l hplace)
  | batch p c => cases hactive.symm.trans (hI.batch w p c hplace).1
  | handed p => cases hactive.symm.trans (hI.handed w p hplace)

theorem exec_of_execWait {c : Pc} {task : TaskState} {w : Pid} (h : c.phase task = .execWait w) :
    c = .schedule (.exec w) ∨ c = .blocked (.exec w) := by
  have hexec {a : Call Pid} (ha : a.phase task = .execWait w) : a = .exec w := by
    cases task <;> cases a <;> cases ha
    rfl
  cases c with
  | schedule a => exact Or.inl (congrArg _ (hexec h))
  | blocked a => exact Or.inr (congrArg _ (hexec h))
  | switching k ops => cases k <;> cases h
  | _ => cases h

theorem posted_of_raised (hA : Abs s σ) {u p : Pid} (h : (s.pc u).raised = some (.scheduler p)) :
    σ.phase u = .posted p := by
  rw [hA.phase]
  cases hpc : s.pc u with
  | switching k ops =>
    rw [hpc, Pc.raised] at h
    split at h
    · cases h
    · cases k <;> cases h <;> rfl
  | _ =>
    rw [hpc] at h
    cases h

/-- Nobody is about to wake a scheduler whose worker is in user code. -/
theorem suspended_of_execWait (hA : Abs s σ) (hI : σ.Inv) {w p : Pid}
    (hwait : σ.phase p = .execWait w) (hpc : s.pc w = .user) : s.suspended (.scheduler p) := by
  constructor
  · obtain ⟨a, ha, hrole, htask⟩ := Pc.schedule_of_phase (c := s.pc p) (r := .scheduler)
      (Or.inr ⟨⟨w, (hA.phase p).symm.trans hwait⟩, rfl⟩)
    show (s.pc p).suspendedAs (s.task p) = some .scheduler
    rcases ha with ha | ha <;> rw [ha, Pc.suspendedAs, htask] <;> exact hrole
  · intro u hu
    have hposted := posted_of_raised hA hu
    have hwait' := hI.execWait_of_under (hI.posted u p hposted) (by rw [hposted]; simp)
    obtain rfl : w = u := by
      rw [hwait] at hwait'
      exact Phase.execWait.inj hwait'
    rw [hpc] at hu
    cases hu

end Device

/-- A scheduler and the workers that it executes take turns. While a worker is in user code, the
scheduler that has executed it is in that call, and no other worker of this scheduler is in user
code; the files show the worker running and the scheduler idle. -/
theorem one_runs_for_each_scheduler {s : Device} (hr : DeviceReachable s) {w : Pid} {x : Worker}
    (hw : s.worker w = some x) (hpc : s.pc w = .user) :
    ∃ p y, x.context.parent = .context p ∧ s.scheduler p = some y ∧
      (s.pc p = .schedule (.exec w) ∨ s.pc p = .blocked (.exec w)) ∧
      Info.getContextState x.context.state = "R (running)".toList ∧
      Info.getContextState y.context.state = "I (idle)".toList ∧
      ∀ v z, s.worker v = some z → s.pc v = .user → z.context.parent = .context p → v = w := by
  obtain ⟨σ, hI, -, hA⟩ := reachable_handoff hr
  obtain ⟨p, hwait, hparent⟩ := Device.execWait_of_user hA hI hw hpc
  have hexec := Device.exec_of_execWait ((hA.phase p).symm.trans hwait)
  have hok := hA.pc p
  obtain ⟨y, hy⟩ : ∃ y, s.scheduler p = some y := by
    rcases hexec with hp | hp <;> rw [hp] at hok <;> exact Option.isSome_iff_exists.mp hok
  have hshown := Device.statesShown_of_reachable hr
  refine ⟨p, y, hparent, hy, hexec, ?_, ?_, fun v z hv hpcv hz => ?_⟩
  · rw [getContextState_eq_running]
    intro hidle
    have hsus := (hshown (.worker w) x.context (by rw [Device.context, hw]; rfl)).mp hidle
    have hnone : (s.pc w).suspendedAs (s.task w) = some .worker := hsus.1
    rw [hpc] at hnone
    cases hnone
  · rw [getContextState_eq_idle]
    exact (hshown (.scheduler p) y.context (by rw [Device.context, hy]; rfl)).mpr
      (Device.suspended_of_execWait hA hI hwait hpc)
  · obtain ⟨q, hq, hparent'⟩ := Device.execWait_of_user hA hI hv hpcv
    obtain rfl : p = q := Parent.context.inj (hz.symm.trans hparent')
    exact Phase.execWait.inj (hq.symm.trans hwait)

/-- A worker has been executed and has returned to user code. -/
def executeOne : List DeviceAct :=
  let k (n : ℕ) (t : Pid) : List DeviceAct := List.replicate n (.run t)
  List.flatten [.enterScheduler 10 7 :: k 3 10, .enterWorker 1 7 ⟨.null, .null⟩ true :: k 5 1,
    .enterWorker 2 7 ⟨.null, .null⟩ true :: k 5 2, .dqcontext 10 7 :: k 2 10,
    .nextContext 10 1 :: k 1 10, .nextContext 10 2 :: k 1 10, .exec 10 1 :: k 7 10, k 1 1]

theorem one_runs_for_each_scheduler_executeOne :
    ∃ s x, (DeviceReachable s ∧ s.worker 1 = some x ∧ s.pc 1 = .user) ∧
      ∃ p y, x.context.parent = .context p ∧ s.scheduler p = some y ∧
        (s.pc p = .schedule (.exec 1) ∨ s.pc p = .blocked (.exec 1)) ∧
        Info.getContextState x.context.state = "R (running)".toList ∧
        Info.getContextState y.context.state = "I (idle)".toList ∧
        ∀ v z, s.worker v = some z → s.pc v = .user → z.context.parent = .context p → v = 1 := by
  obtain ⟨s, hr, hw, hpc⟩ := Transition.Reach.exists_of_run Device.step
    (fun s a => Protocol s a ∧ Calm s a) Device.init executeOne
    (fun s => s.worker 1 = some ⟨⟨.running, .context 10, 0⟩, some 7⟩ ∧ s.pc 1 = .user)
    (by decide +kernel)
  exact ⟨s, _, ⟨hr, hw, hpc⟩, one_runs_for_each_scheduler hr hw hpc⟩

end LinuxUms
