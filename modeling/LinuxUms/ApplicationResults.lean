import LinuxUms.ApplicationOrder

/-! The results that the workers of `examples/00-simple-example/main.c` hand to the schedulers. The
worker allocates a `long` before it yields, and the scheduler that gets the event prints and frees
it. The worker of the benchmark passes the address of a member of its task, which the schedulers do
not look at. -/
namespace LinuxUms

open KernelList Handoff

/-- The program with the memory of the results, and what it has printed. -/
structure Results where
  app : App
  block : UserPtr → Option ℤ
  -- the context and the value of each line
  printed : List (Pid × ℤ)
  fault : Bool

namespace Results

def init (P : Program) : Results where
  app := .init P
  block _ := none
  printed := []
  fault := false

/-- `malloc` has returned `result`, which is not NULL and in use for nothing else, and
`*result = (long) (intptr_t) arg`. -/
def allocate (s : Results) (result : UserPtr) (arg : ℤ) : Option Results :=
  if result ≠ 0 ∧ s.block result = none then
    some { s with block := Function.update s.block result (some arg) }
  else none

/-- `worker_result = *((long *) args)`, `printf` and `free(args)`, in the case of a yield. -/
def collect (s : Results) : Event → Results
  | .threadYield context args =>
    match s.block args with
    | some result => { s with
        block := Function.update s.block args none
        printed := s.printed ++ [(context, result)] }
    | none => { s with fault := true }
  | .schedulerStartup | .threadTerminated _ => s

/-- The rest of the statement. -/
def proceed (P : Program) (s : Results) (a : AppAct) : Option Results :=
  (s.app.step P a).map ({ s with app := · })

/-- `arg t` is the argument of worker thread `t`, which the example has yield once. -/
def step (P : Program) (arg : Pid → ℤ) (s : Results) : AppAct → Option Results
  | .user t env =>
    if P.initInEntry then s.proceed P (.user t env)
    else match s.app.code t with
      | .func (_ + 1) =>
        if env.malloc then (s.allocate env.param (arg t)).bind (·.proceed P (.user t env))
        -- `worker_pthread_proc` returns
        else if s.app.dev.pc t = .user then some { s with app := s.app.goto t (.func 0) }
        else none
      | .schedEntryProc => (s.collect (s.app.event t)).proceed P (.user t env)
      | _ => s.proceed P (.user t env)
  | a => s.proceed P a

end Results

/-- The worker that an event carries a result of, and where the result is. -/
def Event.result : Event → Option (Pid × UserPtr)
  | .threadYield c x => some (c, x)
  | .schedulerStartup | .threadTerminated _ => none

/-- The result that a worker has not posted yet, inside its yield. -/
def Pc.result (t : Pid) : Pc → Option (Pid × UserPtr)
  | .yieldParent x | .yieldPost _ x => some (t, x)
  | _ => none

namespace App

variable {P : Program} {s s' : App} {q : Pid → Option (List ℕ)} {t : Pid} {d : Device}

/-- The event that a scheduler has got and not looked at. -/
def inHand (s : App) (t : Pid) : List Event :=
  if s.code t = .schedEntryProc ∨ s.dev.pc t = .evReturn then [s.event t] else []

/-- The results that are on their way, with thread `t` or in its event queue. -/
def carried (s : App) (t : Pid) : List (Pid × UserPtr) :=
  ((s.dev.pc t).result t).toList ++ (s.inHand t ++ s.dev.eventQ t).filterMap Event.result

theorem resume_event (P : Program) (s : App) (t : Pid) (r : Result) (c : Stmt) :
    (s.resume P t r c).event = s.event := by
  cases c with
  | dequeueEvent | dequeueItems => cases r <;> rfl
  | func k => cases k <;> rfl
  | _ => rfl

theorem enter_event (P : Program) (s : App) (t : Pid) (d : Device) :
    (s.enter P t d).event = s.event := by
  unfold enter
  split
  · exact resume_event P _ t _ _
  · rfl

end App

/-- A call posts no event. -/
theorem Device.eventQ_call {s s' : Device} {a : DeviceAct} (hs : s.call a = some s') (p : Pid) :
    s'.eventQ p = s.eventQ p := by
  cases a with
  | enterScheduler t l =>
    rw [Device.call] at hs
    split at hs
    · cases hs
      rfl
    · rename_i hnone
      cases hs
      exact eventQ_register hnone (by rfl) p
  | run t | signal t => cases hs
  | _ =>
    rw [Device.call] at hs
    split at hs <;> cases hs <;> rfl

/-- What a step inside a call does to the results on their way: nothing, or a worker posts its own,
or a scheduler takes an event. -/
inductive Passes (s : Device) (t : Pid) (c : Pc) (s' : Device) : Prop where
  | keep (hc : c ≠ .evReturn) (hev : c = .evTest → s'.pc t = .evWait)
      (hpc : (s'.pc t).result t = c.result t) (hback : s'.pc t ≠ .evReturn)
      (hq : ∀ p, (s'.eventQ p).filterMap Event.result = (s.eventQ p).filterMap Event.result)
  | post (p : Pid) (x : UserPtr) (hc : c = .yieldPost p x) (hreg : (s.scheduler p).isSome)
      (hpc : (s'.pc t).result t = none) (hback : s'.pc t ≠ .evReturn)
      (hq : ∀ u, s'.eventQ u = s.eventQ u ++ if u = p then [.threadYield t x] else [])
  | take (e : Event) (hc : c = .evTest) (hpc : s'.pc t = .evReturn)
      (hself : s.eventQ t = e :: s'.eventQ t) (hq : ∀ p, p ≠ t → s'.eventQ p = s.eventQ p)
  | back (hc : c = .evReturn) (hpc : s'.pc t = .user) (hret : s'.returned t = some .ok)
      (hq : ∀ p, s'.eventQ p = s.eventQ p)

theorem Device.Move.passes {s s' : Device} {t : Pid} {c : Pc} (h : s.Move t c s') :
    Passes s t c s' := by
  -- the queue gets an event that carries no result
  have hpost {p : Pid} {k : Scheduler} (hk : s.scheduler p = some k) {e : Event}
      (he : e.result = none) (u : Pid) :
      ((s.setScheduler p { k with eventQ := k.eventQ ++ [e] }).eventQ u).filterMap Event.result =
        (s.eventQ u).filterMap Event.result := by
    rw [eventQ_post hk, List.filterMap_append]
    split <;> simp [he]
  cases h with
  | switching k op ops =>
    have hb := beside_switchOp s (k.contexts t).1 (k.contexts t).2 op
    have hpc : (s.stepSwitch t k op ops).pc t = if ops = [] then k.after else .switching k ops :=
      Function.update_self t _ _
    refine .keep (by simp) (by simp) ?_ ?_ (fun p => congrArg _ (hb.eventQ p))
    · rw [hpc]
      split
      · cases k <;> rfl
      · rfl
    · rw [hpc]
      split
      · cases k <;> simp [Switching.after]
      · simp
  | enterAttach | enterAdd | yieldAdd | sleep | dqSleep | dqWoken | yieldParent | exitParent
  | evSleep | evWoken | awake | wake | startReturn | dqInterrupted | dqReturn | next | close
  | exitOrphan | destroy | evInterrupted | dqTake =>
    exact .keep (by simp) (by simp) (by simp [Pc.result]) (by simp) (fun _ => rfl)
  | schedAttach l k hk =>
    exact .keep (by simp) (by simp) (by simp [Pc.result]) (by simp)
      (fun p => congrArg _ (eventQ_setScheduler hk (by rfl) p))
  | startup k hk | exitPost p k hk =>
    exact .keep (by simp) (by simp) (by simp [Pc.result]) (by simp) (hpost hk rfl)
  | yieldPost p x k hk =>
    exact .post p x rfl (by rw [hk]; rfl) (by simp [Pc.result]) (by simp) (eventQ_post hk _)
  | evTake k e rest hk he =>
    refine .take e rfl (by simp) ?_ (fun p hp => eventQ_setScheduler_ne hp _)
    rw [eventQ_of_scheduler hk, he]
    show e :: rest = e :: (s.setScheduler t { k with eventQ := rest }).eventQ t
    rw [eventQ_setScheduler_self]
  | evReturn => exact .back rfl (by simp) (returned_ret _ t _ _) (fun _ => rfl)

section Steps

variable {P : Program} {s s' : App} {q q' : Pid → Option (List ℕ)} {t : Pid} {d : Device}

theorem App.inHand_nil (hcode : s.code t ≠ .schedEntryProc) (hpc : s.dev.pc t ≠ .evReturn) :
    s.inHand t = [] := if_neg (by simp [hcode, hpc])

/-- Nobody comes to the entry point but from `dequeue_ums_sched_event`. -/
theorem resume_code (P : Program) (s : App) (t : Pid) (r : Result)
    (hev : s.code t ≠ .dequeueEvent) (hentry : s.code t ≠ .schedEntryProc) :
    (s.resume P t r (s.code t)).code t ≠ .schedEntryProc := by
  have hgo (s : App) {c : Stmt} (hc : c ≠ .schedEntryProc) :
      (s.goto t c).code t ≠ .schedEntryProc := by
    rw [goto_code]
    exact hc
  have hite {p : Prop} [Decidable p] {a b : Stmt} (ha : a ≠ .schedEntryProc)
      (hb : b ≠ .schedEntryProc) : (if p then a else b) ≠ .schedEntryProc := by
    split
    · exact ha
    · exact hb
  generalize s.code t = c at hev ⊢
  cases c with
  | dequeueEvent => exact absurd rfl hev
  | enterSchedulingMode | enterWorker | nextItem => exact hgo _ (hite (by simp) (by simp))
  | dequeueItems =>
    cases r with
    | ok | enomem | esrch => exact hgo _ (by simp)
    | erestartsys => exact hentry
  | execute n => exact hgo _ (by simp)
  | func k => cases k <;> exact hgo _ (by simp)
  | schedEntryProc | addNode | firstEntry | freeNode | done => exact hentry

theorem enter_code (P : Program) (s : App) (t : Pid) (d : Device)
    (hev : s.code t ≠ .dequeueEvent) (hentry : s.code t ≠ .schedEntryProc) :
    (s.enter P t d).code t ≠ .schedEntryProc := by
  unfold App.enter
  split
  · exact resume_code P (s.setDev d) t _ hev hentry
  · exact hentry

theorem AppStep.inHand_other (h : AppStep P s q t s' q') {u : Pid} (hu : u ≠ t) :
    s'.inHand u = s.inHand u := by
  have hev : s'.event u = s.event u := congrArg View.event (h.view u hu)
  rw [App.inHand, App.inHand, h.code u hu, h.dev.pc u hu, hev]

/-- What a step inside an ioctl does to the results on their way. -/
inductive Carries (s : App) (t : Pid) (s' : App) : Prop where
  | keep (h : ∀ u, s'.carried u = s.carried u)
  | post (p : Pid) (x : UserPtr) (hne : p ≠ t) (ht : s.carried t = (t, x) :: s'.carried t)
      (hp : s'.carried p = s.carried p ++ [(t, x)])
      (h : ∀ u, u ≠ t → u ≠ p → s'.carried u = s.carried u)

theorem AppInv.notScheduler_of_func (hI : AppInv P s q) {k : ℕ} (hcode : s.code t = .func k) :
    t ∉ P.schedulers := by
  intro ht
  have hat := (hI.sched ht).2
  rw [hcode] at hat
  exact hat

theorem AppInv.unregistered_of_func (hI : AppInv P s q) {k : ℕ} (hcode : s.code t = .func k) :
    (s.dev.scheduler t).isSome = false :=
  (hI.work (hI.notScheduler_of_func hcode)).1.1

/-- A thread inside a call is not at its entry point. -/
theorem AppInv.entry_user (hI : AppInv P s q) (hcode : s.code t = .schedEntryProc) :
    s.dev.pc t = .user := by
  have h := hI.at t
  rw [hcode] at h
  exact of_decide_eq_true h

theorem AppInv.dequeueEvent_pc (hI : AppInv P s q) (hcode : s.code t = .dequeueEvent) :
    s.dev.pc t = .user ∨ s.dev.pc t = .evTest ∨ s.dev.pc t = .evReturn := by
  have h := hI.at t
  rw [hcode] at h
  generalize s.dev.pc t = x at h
  cases x with
  | user => exact Or.inl rfl
  | evTest => exact Or.inr (Or.inl rfl)
  | evReturn => exact Or.inr (Or.inr rfl)
  | _ => cases h

theorem AppStep.carried_other (h : AppStep P s q t s' q') {u : Pid} (hu : u ≠ t)
    {l : List (Pid × UserPtr)} (hq : (s'.dev.eventQ u).filterMap Event.result =
      (s.dev.eventQ u).filterMap Event.result ++ l) : s'.carried u = s.carried u ++ l := by
  rw [App.carried, App.carried, h.dev.pc u hu, h.inHand_other hu, List.filterMap_append,
    List.filterMap_append, hq]
  simp only [List.append_assoc]

theorem AppStep.carried_same (h : AppStep P s q t s' q') {u : Pid} (hu : u ≠ t)
    (hq : (s'.dev.eventQ u).filterMap Event.result = (s.dev.eventQ u).filterMap Event.result) :
    s'.carried u = s.carried u := by
  refine (h.carried_other (l := []) hu ?_).trans (List.append_nil _)
  rw [hq, List.append_nil]

theorem Carries.of_self (ht : s'.carried t = s.carried t)
    (h : ∀ u, u ≠ t → s'.carried u = s.carried u) : Carries s t s' := by
  refine .keep fun u => ?_
  by_cases hu : u = t
  · rw [hu, ht]
  · exact h u hu

/-- A step of the kernel: the result of a yield goes to the parent, and an event in a queue is as
good as one that has been copied to the scheduler. -/
theorem AppInv.kernel_carries (hI : AppInv P s q) (hpc : s.dev.pc t ≠ .user)
    (h : (s.copyToUser t).ioctl P t (.run t) = some s') : Carries s t s' := by
  have hstep := hI.kernel hpc h
  rw [App.ioctl, App.copyToUser_dev] at h
  obtain ⟨d, hs, rfl⟩ := Option.map_eq_some_iff.mp h
  have hd : DeviceReachable d := .tail (.run t) hI.dev ⟨trivial, trivial⟩ hs
  have hm := Device.move_of_run hs (Device.fault_of_reachable hd)
  have hdev := App.enter_dev P (s.copyToUser t) t d
  have hentry : s.code t ≠ .schedEntryProc := fun hc => hpc (hI.entry_user hc)
  have hentry' (hc : s.code t ≠ .dequeueEvent) :
      ((s.copyToUser t).enter P t d).code t ≠ .schedEntryProc := by
    have hcopy := App.copyToUser_code s t
    apply enter_code <;> rwa [hcopy]
  cases hm.passes with
  | keep hc hev hres hback hq =>
    -- a thread that asks for an event finds one, so this is another statement
    have hcode : s.code t ≠ .dequeueEvent := by
      intro hcode
      rcases hI.dequeueEvent_pc hcode with hx | hx | hx
      · exact hpc hx
      · refine hstep.inv.not_evWait t ?_
        rw [hdev]
        exact hev hx
      · exact hc hx
    refine .of_self ?_ fun u hu => hstep.carried_same hu (by rw [hdev, hq])
    rw [App.carried, App.carried, App.inHand_nil (hentry' hcode) (by rwa [hdev]),
      App.inHand_nil hentry hc, hdev, hres, List.nil_append, List.nil_append, hq]
  | post p x hc hreg hres hback hq =>
    obtain ⟨k, hcode⟩ := hI.from hc
    -- the parent has registered as a scheduler, and a worker never does
    have hne : p ≠ t := by
      rintro rfl
      have hno := hI.unregistered_of_func hcode
      rw [hno] at hreg
      cases hreg
    refine .post p x hne ?_ ?_ ?_
    · rw [App.carried, App.carried, App.inHand_nil (hentry' (by simp [hcode])) (by rwa [hdev]),
        App.inHand_nil hentry (by simp [hc]), hdev, hres, hc, hq, if_neg hne.symm]
      simp [Pc.result]
    · apply hstep.carried_other hne
      rw [hdev, hq, if_pos rfl, List.filterMap_append]
      rfl
    · intro u hu hup
      apply hstep.carried_same hu
      rw [hdev, hq, if_neg hup, List.append_nil]
  | take e hc hres hself hq =>
    -- the event goes from the queue to the variable of the thread
    have hhand : ((s.copyToUser t).enter P t d).inHand t = [e] := by
      rw [App.inHand, hdev, if_pos (Or.inr hres), App.enter_event, App.copyToUser, hc, hself]
      simp
    refine .of_self ?_ fun u hu => hstep.carried_same hu (by rw [hdev, hq u hu])
    rw [App.carried, App.carried, hhand, App.inHand_nil hentry (by simp [hc]), hdev, hres, hc,
      hself]
    rfl
  | back hc hres hret hq =>
    -- it stays there while the call returns and the thread comes to its entry point
    have hcopy : s.copyToUser t = s := copyToUser_at hc rfl
    have hcode : ((s.copyToUser t).enter P t d).code t = .schedEntryProc := by
      have hcode : s.code t = .dequeueEvent := hI.from hc
      rw [hcopy, App.enter, hret, hcode]
      exact goto_code _ t _
    have hhand : ((s.copyToUser t).enter P t d).inHand t = s.inHand t := by
      rw [App.inHand, App.inHand, if_pos (Or.inl hcode), if_pos (Or.inr hc), App.enter_event, hcopy]
    refine .of_self ?_ fun u hu => hstep.carried_same hu (by rw [hdev, hq])
    rw [App.carried, App.carried, hhand, hdev, hres, hc, hq]
    rfl

theorem Goes.code_ne {c c' : Stmt} {x : Pc} (h : Goes P c c' x) : c' ≠ .schedEntryProc := by
  cases h <;> simp

theorem Goes.pc_ne {c c' : Stmt} {x : Pc} (h : Goes P c c' x) : x ≠ .evReturn := by
  cases h <;> simp

theorem Goes.result {c c' : Stmt} {x : Pc} (h : Goes P c c' x) (hc : ∀ k, c ≠ .func (k + 1)) :
    x.result t = none := by
  cases h with
  | yield k => exact absurd rfl (hc k)
  | _ => rfl

/-- A statement takes the event at hand, if it is the entry point, and may begin a yield. -/
theorem AppInv.user_carries (hI : AppInv P s q) {env : Env} (henv : env.malloc = true)
    (hpc : s.dev.pc t = .user) (h : s.user P t env (s.code t) = some s') :
    (∀ u, u ≠ t → s'.carried u = s.carried u) ∧
      s.carried t = (s.inHand t ++ s.dev.eventQ t).filterMap Event.result ∧
      s'.carried t = ((s'.dev.pc t).result t).toList ++
        (s.dev.eventQ t).filterMap Event.result := by
  obtain ⟨q', hstep⟩ := hI.user henv hpc h
  have hq (u : Pid) : s'.dev.eventQ u = s.dev.eventQ u := by
    rcases App.user_dev h with hdev | ⟨a, ha, hs⟩
    · rw [hdev]
    · exact Device.eventQ_call (Device.step_call ha hs).2 u
  refine ⟨fun u hu => hstep.toAppStep.carried_same hu (by rw [hq]), ?_, ?_⟩
  · rw [App.carried, hpc]
    rfl
  · rw [App.carried, App.inHand_nil hstep.goes.code_ne hstep.goes.pc_ne, hq, List.nil_append]

theorem AppInv.entry_carries (hI : AppInv P s q) {env : Env} (henv : env.malloc = true)
    (hpc : s.dev.pc t = .user) (hcode : s.code t = .schedEntryProc)
    (h : s.user P t env (s.code t) = some s') :
    s.carried t = (s.event t).result.toList ++ s'.carried t := by
  obtain ⟨-, hold, hnew⟩ := hI.user_carries henv hpc h
  obtain ⟨q', hstep⟩ := hI.user henv hpc h
  rw [hold, hnew, hstep.goes.result (by simp [hcode]), App.inHand, if_pos (Or.inl hcode)]
  cases (s.event t) <;> rfl

theorem AppInv.yield_carries (hI : AppInv P s q) {env : Env} (henv : env.malloc = true)
    (hpc : s.dev.pc t = .user) {k : ℕ} (hcode : s.code t = .func (k + 1))
    (h : s.user P t env (s.code t) = some s') :
    s'.carried t = (t, env.param) :: s.carried t := by
  obtain ⟨-, hold, hnew⟩ := hI.user_carries henv hpc h
  have hw : (s.dev.worker t).isSome = true := by
    have hat := (hI.work (hI.notScheduler_of_func hcode)).2
    rw [hcode] at hat
    exact worker_isSome hat.1
  have hs := Device.step_yield env.param hpc hw
  rw [hcode] at h
  rw [hold, hnew, ioctl_busy hs (by simp) h, App.inHand_nil (by simp [hcode]) (by simp [hpc])]
  simp [Pc.result]

theorem AppInv.plain_carries (hI : AppInv P s q) {env : Env} (henv : env.malloc = true)
    (hpc : s.dev.pc t = .user) (hentry : s.code t ≠ .schedEntryProc)
    (hfunc : ∀ k, s.code t ≠ .func (k + 1)) (h : s.user P t env (s.code t) = some s') (u : Pid) :
    s'.carried u = s.carried u := by
  obtain ⟨hother, hold, hnew⟩ := hI.user_carries henv hpc h
  by_cases hu : u = t
  · obtain ⟨q', hstep⟩ := hI.user henv hpc h
    rw [hu, hold, hnew, hstep.goes.result hfunc, App.inHand_nil hentry (by simp [hpc])]
    rfl
  · exact hother u hu

end Steps

/-- Each result on its way, `f t` those with thread `t`, is allocated and holds the argument of its
worker, and no two of them are in one place. -/
structure BlocksOk (arg : Pid → ℤ) (block : UserPtr → Option ℤ)
    (f : Pid → List (Pid × UserPtr)) : Prop where
  live : ∀ t, ∀ e ∈ f t, block e.2 = some (arg e.1)
  nodup : ∀ t, ((f t).map Prod.snd).Nodup
  apart : ∀ t u x, x ∈ (f t).map Prod.snd → x ∈ (f u).map Prod.snd → t = u

namespace BlocksOk

variable {arg : Pid → ℤ} {block : UserPtr → Option ℤ} {f f' : Pid → List (Pid × UserPtr)}
  {t p : Pid} {e : Pid × UserPtr} {x : UserPtr}

theorem congr (h : BlocksOk arg block f) (hf : ∀ u, f' u = f u) : BlocksOk arg block f' := by
  rw [funext hf]
  exact h

theorem allocated (h : BlocksOk arg block f) (hx : x ∈ (f t).map Prod.snd) : block x ≠ none := by
  obtain ⟨e, he, rfl⟩ := List.mem_map.mp hx
  simp [h.live t e he]

/-- When the first result of `t` is gone, the others are somewhere else. -/
theorem ne_of_take (h : BlocksOk arg block f) (ht : f t = e :: f' t)
    (hrest : ∀ u, u ≠ t → f' u = f u) {u : Pid} (hx : x ∈ (f' u).map Prod.snd) :
    x ∈ (f u).map Prod.snd ∧ x ≠ e.2 := by
  have hnodup := h.nodup t
  rw [ht, List.map_cons, List.nodup_cons] at hnodup
  by_cases hu : u = t
  · subst hu
    rw [ht, List.map_cons]
    refine ⟨List.mem_cons_of_mem _ hx, ?_⟩
    rintro rfl
    exact hnodup.1 hx
  · rw [hrest u hu] at hx
    refine ⟨hx, ?_⟩
    rintro rfl
    exact hu (h.apart u t e.2 hx (by simp [ht]))

theorem take (h : BlocksOk arg block f) (ht : f t = e :: f' t)
    (hrest : ∀ u, u ≠ t → f' u = f u) : BlocksOk arg (Function.update block e.2 none) f' := by
  have hsub {u : Pid} {e' : Pid × UserPtr} (he : e' ∈ f' u) : e' ∈ f u := by
    by_cases hu : u = t
    · subst hu
      rw [ht]
      exact List.mem_cons_of_mem _ he
    · rwa [← hrest u hu]
  constructor
  · intro u e' he
    have hne := (h.ne_of_take ht hrest (List.mem_map_of_mem he)).2
    rw [Function.update_of_ne hne]
    exact h.live u e' (hsub he)
  · intro u
    by_cases hu : u = t
    · have hnodup := h.nodup t
      rw [ht, List.map_cons, List.nodup_cons] at hnodup
      rw [hu]
      exact hnodup.2
    · rw [hrest u hu]
      exact h.nodup u
  · intro u v x hu hv
    exact h.apart u v x (h.ne_of_take ht hrest hu).1 (h.ne_of_take ht hrest hv).1

/-- A result in a place that is free goes to `t`, in front or at the end of what it has. -/
theorem give (h : BlocksOk arg block f) (hx : block e.2 = none)
    (ht : (f' t).Perm (e :: f t)) (hrest : ∀ u, u ≠ t → f' u = f u) :
    BlocksOk arg (Function.update block e.2 (some (arg e.1))) f' := by
  have hne {u : Pid} {e' : Pid × UserPtr} (he : e' ∈ f u) : e'.2 ≠ e.2 :=
    fun heq => h.allocated (List.mem_map_of_mem he) (heq ▸ hx)
  have hmem {u : Pid} {e' : Pid × UserPtr} (he : e' ∈ f' u) : u = t ∧ e' = e ∨ e' ∈ f u := by
    by_cases hu : u = t
    · subst hu
      exact (List.mem_cons.mp (ht.mem_iff.mp he)).imp (⟨rfl, ·⟩) id
    · rw [hrest u hu] at he
      exact Or.inr he
  constructor
  · intro u e' he
    rcases hmem he with ⟨-, rfl⟩ | he
    · exact Function.update_self _ _ _
    · rw [Function.update_of_ne (hne he)]
      exact h.live u e' he
  · intro u
    by_cases hu : u = t
    · subst hu
      rw [(ht.map Prod.snd).nodup_iff, List.map_cons, List.nodup_cons]
      exact ⟨fun hm => h.allocated hm hx, h.nodup u⟩
    · rw [hrest u hu]
      exact h.nodup u
  · intro u v x hu hv
    obtain ⟨a, ha, rfl⟩ := List.mem_map.mp hu
    obtain ⟨b, hb, hab⟩ := List.mem_map.mp hv
    rcases hmem ha with ⟨rfl, rfl⟩ | ha <;> rcases hmem hb with ⟨rfl, rfl⟩ | hb
    · rfl
    · exact absurd hab (hne hb)
    · exact absurd hab.symm (hne ha)
    · refine h.apart u v a.2 (List.mem_map_of_mem ha) ?_
      rw [← hab]
      exact List.mem_map_of_mem hb

/-- The first result of `t` goes to `p`. -/
theorem pass (h : BlocksOk arg block f) (hne : p ≠ t) (ht : f t = e :: f' t)
    (hp : f' p = f p ++ [e]) (hrest : ∀ u, u ≠ t → u ≠ p → f' u = f u) :
    BlocksOk arg block f' := by
  -- between the two threads it is with nobody
  have htake : BlocksOk arg (Function.update block e.2 none) (Function.update f t (f' t)) := by
    apply h.take
    · rwa [Function.update_self]
    · exact fun u hu => Function.update_of_ne hu _ _
  have hgive : BlocksOk arg (Function.update (Function.update block e.2 none) e.2
      (some (arg e.1))) f' := by
    refine htake.give (t := p) (Function.update_self _ _ _) ?_ fun u hu => ?_
    · rw [hp, Function.update_of_ne hne]
      exact List.perm_append_singleton _ _
    · by_cases hut : u = t
      · rw [hut, Function.update_self]
      · rw [Function.update_of_ne hut]
        exact hrest u hut hu
  rwa [Function.update_idem, ← h.live t e (by simp [ht]), Function.update_eq_self] at hgive

end BlocksOk

/-- What holds of the results in every state. The benchmark has none. -/
structure ResultsOk (P : Program) (arg : Pid → ℤ) (s : Results) : Prop where
  app : AppReachable P s.app
  blocks : P.initInEntry = false → BlocksOk arg s.block s.app.carried
  printed : ∀ e ∈ s.printed, e.2 = arg e.1
  fault : s.fault = false

section Runs

variable {P : Program} {arg : Pid → ℤ} {s s' : Results} {t : Pid}

theorem Results.proceed_eq {a : AppAct} (hs : s.proceed P a = some s') :
    ∃ x, s.app.step P a = some x ∧ s' = { s with app := x } := by
  obtain ⟨x, hx, rfl⟩ := Option.map_eq_some_iff.mp hs
  exact ⟨x, hx, rfl⟩

theorem Results.collect_live {c : Pid} {x : UserPtr} {v : ℤ} (hx : s.block x = some v) :
    s.collect (.threadYield c x) = { s with
      block := Function.update s.block x none
      printed := s.printed ++ [(c, v)] } := by
  rw [Results.collect, hx]

/-- A step of the program that leaves the results with the threads they were with. -/
theorem ResultsOk.rest (h : ResultsOk P arg s) {a : AppAct} (ha : Fair s.app a)
    (hs : s.proceed P a = some s')
    (hb : P.initInEntry = false → BlocksOk arg s.block s'.app.carried) : ResultsOk P arg s' := by
  obtain ⟨x, hx, rfl⟩ := Results.proceed_eq hs
  exact ⟨.tail a h.app ha hx, hb, h.printed, h.fault⟩

theorem ResultsOk.kernel (h : ResultsOk P arg s) (hs : s.proceed P (.kernel t) = some s') :
    ResultsOk P arg s' := by
  refine h.rest (a := .kernel t) trivial hs fun hP => ?_
  obtain ⟨x, hx, rfl⟩ := Results.proceed_eq hs
  obtain ⟨q, hI⟩ := appInv_of_reachable h.app
  obtain ⟨hpc, hx⟩ := App.kernel_of_step hx
  cases hI.kernel_carries hpc hx with
  | keep hc => exact (h.blocks hP).congr hc
  | post p y hne ht hp hrest => exact (h.blocks hP).pass hne ht hp hrest

theorem ResultsOk.signal (h : ResultsOk P arg s) (ha : Fair s.app (.signal t))
    (hs : s.proceed P (.signal t) = some s') : ResultsOk P arg s' := by
  refine h.rest ha hs fun hP => ?_
  obtain ⟨x, hx, rfl⟩ := Results.proceed_eq hs
  obtain ⟨d, hd, rfl⟩ := Option.map_eq_some_iff.mp hx
  obtain ⟨-, rfl⟩ := Device.step_signal hd
  exact (h.blocks hP).congr fun _ => rfl

theorem ResultsOk.plain (h : ResultsOk P arg s) {env : Env} (henv : env.malloc = true)
    (hcode : P.initInEntry = false →
      s.app.code t ≠ .schedEntryProc ∧ ∀ k, s.app.code t ≠ .func (k + 1))
    (hs : s.proceed P (.user t env) = some s') : ResultsOk P arg s' := by
  refine h.rest (a := .user t env) henv hs fun hP => ?_
  obtain ⟨x, hx, rfl⟩ := Results.proceed_eq hs
  obtain ⟨q, hI⟩ := appInv_of_reachable h.app
  obtain ⟨hpc, hu⟩ := App.user_of_step hx
  exact (h.blocks hP).congr (hI.plain_carries henv hpc (hcode hP).1 (hcode hP).2 hu)

/-- The worker allocates its result and yields. -/
theorem ResultsOk.yield (h : ResultsOk P arg s) {env : Env} (henv : env.malloc = true) {k : ℕ}
    (hcode : s.app.code t = .func (k + 1))
    (hs : (s.allocate env.param (arg t)).bind (·.proceed P (.user t env)) = some s') :
    ResultsOk P arg s' := by
  rw [Results.allocate] at hs
  split at hs
  · rename_i hnew
    obtain ⟨x, hx, rfl⟩ := Results.proceed_eq hs
    obtain ⟨q, hI⟩ := appInv_of_reachable h.app
    obtain ⟨hpc, hu⟩ := App.user_of_step hx
    refine ⟨.tail (.user t env) h.app henv hx, fun hP => ?_, h.printed, h.fault⟩
    have ht := hI.yield_carries henv hpc hcode hu
    exact (h.blocks hP).give (e := (t, env.param)) hnew.2 (by rw [ht])
      (hI.user_carries henv hpc hu).1
  · cases hs

/-- The scheduler finds the result of the event at hand, prints it and frees it. -/
theorem ResultsOk.entry (h : ResultsOk P arg s) (hP : P.initInEntry = false) {env : Env}
    (henv : env.malloc = true) (hcode : s.app.code t = .schedEntryProc)
    (hs : (s.collect (s.app.event t)).proceed P (.user t env) = some s') :
    ResultsOk P arg s' := by
  obtain ⟨q, hI⟩ := appInv_of_reachable h.app
  have happ : (s.collect (s.app.event t)).app = s.app := by
    unfold Results.collect
    repeat' split
    all_goals rfl
  obtain ⟨x, hx, rfl⟩ := Results.proceed_eq hs
  rw [happ] at hx
  obtain ⟨hpc, hu⟩ := App.user_of_step hx
  have ht := hI.entry_carries henv hpc hcode hu
  have hrest := (hI.user_carries henv hpc hu).1
  generalize hev : s.app.event t = e at ht
  cases e with
  | schedulerStartup | threadTerminated =>
    refine ⟨.tail (.user t env) h.app henv hx, fun _ => (h.blocks hP).congr fun u => ?_, h.printed,
      h.fault⟩
    by_cases hu : u = t
    · rw [hu, ht]
      rfl
    · exact hrest u hu
  | threadYield c y =>
    have hlive := (h.blocks hP).live t (c, y) (by simp [ht, Event.result])
    rw [Results.collect_live hlive]
    refine ⟨.tail (.user t env) h.app henv hx, fun _ => (h.blocks hP).take ht hrest, ?_, h.fault⟩
    intro e he
    rcases List.mem_append.mp he with he | he
    · exact h.printed e he
    · rw [List.mem_singleton.mp he]

end Runs

end LinuxUms
