import LinuxUms.Refinement
import Mathlib.Data.List.Count

/-! What one step of a thread inside a call can do, said once: the places of the call with the
state before and after, in runs where no pointer is bad. On top of it, which events a scheduler
has taken off its queue. -/
namespace LinuxUms

open KernelList Handoff

/-- How many events have been delivered to `p`. -/
def Handoff.deliveries {T L E : Type*} [DecidableEq T] (p : T) : List (Obs T L E) → ℕ
  | [] => 0
  | .ret q c r :: h =>
    if q = p ∧ c = .dqevent ∧ r = .ok then deliveries p h + 1 else deliveries p h
  | _ :: h => deliveries p h

namespace Device

/-- The steps of thread `t` inside a call, by the place it is at. -/
inductive Move (s : Device) (t : Pid) : Pc → Device → Prop where
  | enterAttach (l : ListId) (w : Worker) (hw : s.worker t = some w) :
      Move s t (.enterAttach l) ((s.setWorker t (some { w with complist := some l })).setPc t
        (.switching (.enter l) prepareSuspendContext))
  | switching (k : Switching) (op : SwitchOp) (ops : List SwitchOp) :
      Move s t (.switching k (op :: ops)) (s.stepSwitch t k op ops)
  | enterAdd (l : ListId) (h : Heap Node)
      (hadd : umsCompletionListAdd s.heap l t complistAddTail = some h) :
      Move s t (.enterAdd l)
        (({ s with heap := h }.log (.queued t l)).setPc t (.schedule .enterWorker))
  | yieldAdd (x : UmsContext) (l : ListId) (h : Heap Node) (hw : s.worker t = some ⟨x, some l⟩)
      (hadd : umsCompletionListAdd s.heap l t complistAddTail = some h) :
      Move s t .yieldAdd (({ s with heap := h }.log (.queued t l)).setPc t (.schedule .yield))
  | sleep (c : Call Pid) (ht : s.task t = .interruptible) :
      Move s t (.schedule c) (s.setPc t (.blocked c))
  | awake (c : Call Pid) (ht : s.task t = .running) : Move s t (.schedule c) (s.ret t c .ok)
  | wake (c : Call Pid) (ht : s.task t = .running) : Move s t (.blocked c) (s.ret t c .ok)
  | schedAttach (l : ListId) (c : Scheduler) (hc : s.scheduler t = some c) :
      Move s t (.schedAttach l)
        ((s.setScheduler t { c with complist := some l }).setPc t .startup)
  | startup (c : Scheduler) (hc : s.scheduler t = some c) :
      Move s t .startup
        (((s.setScheduler t { c with eventQ := c.eventQ ++ [.schedulerStartup] }).log
          (.start t .schedulerStartup)).setPc t .startReturn)
  | startReturn : Move s t .startReturn (s.ret t .enterScheduler .ok)
  | dqSleep (l : ListId) (he : listEmpty s.heap (.head l) = true) :
      Move s t (.dqTest l) ((s.setTask t .interruptible).setPc t (.dqWait l))
  | dqTake (l : ListId) (c : Pid) (h : Heap Node) (he : listEmpty s.heap (.head l) = false)
      (htake : doDequeueUmsComplistContext s.heap l = some (.context c, h)) :
      Move s t (.dqTest l) { s with
        heap := h
        batches := Function.update s.batches t ([c] :: s.batches t)
        pc := Function.update s.pc t .dqReturn }
  | dqInterrupted (l : ListId) (he : listEmpty s.heap (.head l) = true)
      (ht : s.task t = .running) : Move s t (.dqWait l) (s.ret t .dqcontext .erestartsys)
  | dqWoken (l : ListId) (he : listEmpty s.heap (.head l) = false) :
      Move s t (.dqWait l) ((s.setTask t .running).setPc t (.dqTest l))
  | dqReturn : Move s t .dqReturn (s.ret t .dqcontext .ok)
  | next (c d : Pid) (h : Heap Node)
      (hnext : umsComplistNextContext s.heap c = some (some (.context d), h)) :
      Move s t (.nextContext c) ({ s with
        heap := h
        batches := Function.update s.batches t (handNext c d (s.batches t))
        }.ret t .nextContext .ok)
  | close (c : Pid) (h : Heap Node)
      (hnext : umsComplistNextContext s.heap c = some (none, h)) :
      Move s t (.nextContext c) ({ s with
        batches := Function.update s.batches t (closeBatch c (s.batches t)).2
        ready := Function.update s.ready t (s.ready t ++ (closeBatch c (s.batches t)).1)
        }.ret t .nextContext .ok)
  | yieldParent (args : UserPtr) (w : Worker) (p : Pid) (hw : s.worker t = some w)
      (hp : w.context.parent = .context p) :
      Move s t (.yieldParent args) (s.setPc t (.yieldPost p args))
  | yieldPost (p : Pid) (args : UserPtr) (c : Scheduler) (hc : s.scheduler p = some c) :
      Move s t (.yieldPost p args)
        (((s.setScheduler p { c with eventQ := c.eventQ ++ [.threadYield t args] }).log
          (.post p t (.threadYield t args))).setPc t (.switching (.yield p) prepareSwitchContext))
  | exitParent (w : Worker) (p : Pid) (hw : s.worker t = some w)
      (hp : w.context.parent = .context p) : Move s t .exitParent (s.setPc t (.exitPost p))
  | exitOrphan (w : Worker) (hw : s.worker t = some w) (hp : w.context.parent = .null) :
      Move s t .exitParent (s.ret t .exit .esrch)
  | exitPost (p : Pid) (c : Scheduler) (hc : s.scheduler p = some c) :
      Move s t (.exitPost p)
        (((s.setScheduler p { c with eventQ := c.eventQ ++ [.threadTerminated t] }).log
          (.post p t (.threadTerminated t))).setPc t (.switching (.exit p) wakeUpContext))
  | destroy : Move s t .destroy ((s.setWorker t none).ret t .exit .ok)
  | evSleep (c : Scheduler) (hc : s.scheduler t = some c) (he : c.eventQ = []) :
      Move s t .evTest ((s.setTask t .interruptible).setPc t .evWait)
  | evTake (c : Scheduler) (e : Event) (q : List Event) (hc : s.scheduler t = some c)
      (he : c.eventQ = e :: q) :
      Move s t .evTest ((s.setScheduler t { c with eventQ := q }).setPc t .evReturn)
  | evInterrupted (c : Scheduler) (hc : s.scheduler t = some c) (he : c.eventQ = [])
      (ht : s.task t = .running) : Move s t .evWait (s.ret t .dqevent .erestartsys)
  | evWoken (c : Scheduler) (hc : s.scheduler t = some c) (he : c.eventQ ≠ []) :
      Move s t .evWait ((s.setTask t .running).setPc t .evTest)
  | evReturn : Move s t .evReturn (s.ret t .dqevent .ok)

variable {s s' : Device} {t : Pid}

theorem crash_fault {p : Prop} (hf : s.crash.fault = false) : p := by
  cases hf

theorem running_of_not_interruptible {v : TaskState} (h : v ≠ .interruptible) : v = .running := by
  cases v with
  | running => rfl
  | interruptible => exact absurd rfl h

/-- A switch goes through good pointers only, or it sets the fault. -/
theorem addSelf_move (l : ListId) (c : Call Pid) (hf : (s.addSelf t l c).fault = false) :
    ∃ h, umsCompletionListAdd s.heap l t complistAddTail = some h ∧
      s.addSelf t l c = ({ s with heap := h }.log (.queued t l)).setPc t (.schedule c) := by
  unfold addSelf at hf ⊢
  split at hf
  · rename_i h hadd
    exact ⟨h, hadd, rfl⟩
  · exact crash_fault hf

theorem postEvent_eq {p : Pid} (e : Event) (hf : (s.postEvent p e).fault = false) :
    ∃ c, s.scheduler p = some c ∧
      s.postEvent p e = s.setScheduler p { c with eventQ := c.eventQ ++ [e] } := by
  unfold postEvent at hf ⊢
  split at hf
  · rename_i c hc
    exact ⟨c, hc, rfl⟩
  · exact crash_fault hf

/-- Every step inside a call that leaves no fault behind is one of the moves. -/
theorem move_of_run (hs : s.step (.run t) = some s') (hf : s'.fault = false) :
    s.Move t (s.pc t) s' := by
  rw [step] at hs
  generalize s.pc t = c at hs
  cases c with
  | user => cases hs
  | enterAttach l =>
    rw [advance] at hs
    split at hs
    · rename_i w hw
      cases hs
      exact .enterAttach l w hw
    · cases hs
      exact crash_fault hf
  | switching k ops =>
    cases ops with
    | nil => cases hs
    | cons op ops =>
      rw [advance] at hs
      cases hs
      exact .switching k op ops
  | enterAdd l =>
    rw [advance] at hs
    cases hs
    obtain ⟨h, hadd, he⟩ := addSelf_move l _ hf
    rw [he]
    exact .enterAdd l h hadd
  | yieldAdd =>
    rw [advance] at hs
    split at hs
    · rename_i x l hw
      cases hs
      obtain ⟨h, hadd, he⟩ := addSelf_move l _ hf
      rw [he]
      exact .yieldAdd x l h hw hadd
    · cases hs
      exact crash_fault hf
  | schedule c =>
    rw [advance] at hs
    split at hs
    · rename_i ht
      cases hs
      exact .sleep c ht
    · rename_i ht
      cases hs
      exact .awake c (running_of_not_interruptible ht)
  | blocked c =>
    rw [advance] at hs
    split at hs
    · rename_i ht
      cases hs
      exact .wake c ht
    · cases hs
  | schedAttach l =>
    rw [advance] at hs
    split at hs
    · rename_i c hc
      cases hs
      exact .schedAttach l c hc
    · cases hs
      exact crash_fault hf
  | startup =>
    rw [advance] at hs
    cases hs
    obtain ⟨c, hc, he⟩ := postEvent_eq .schedulerStartup hf
    rw [he]
    exact .startup c hc
  | startReturn =>
    rw [advance] at hs
    cases hs
    exact .startReturn
  | dqTest l =>
    rw [advance] at hs
    split at hs
    · rename_i he
      cases hs
      exact .dqSleep l he
    · rename_i he
      cases hs
      rw [Bool.not_eq_true] at he
      unfold takeBatch at hf ⊢
      split at hf
      · rename_i c h htake
        exact .dqTake l c h he htake
      · exact crash_fault hf
  | dqWait l =>
    rw [advance] at hs
    split at hs
    · rename_i he
      split at hs
      · rename_i ht
        cases hs
        exact .dqInterrupted l he ht
      · cases hs
    · rename_i he
      cases hs
      exact .dqWoken l (by simpa using he)
  | dqReturn =>
    rw [advance] at hs
    cases hs
    exact .dqReturn
  | nextContext c =>
    rw [advance] at hs
    cases hs
    unfold takeNext at hf ⊢
    split at hf
    · rename_i d h hnext
      exact .next c d h hnext
    · rename_i h hnext
      exact .close c h hnext
    · exact crash_fault hf
  | yieldParent args =>
    rw [advance] at hs
    split at hs
    · rename_i x p n l hw
      cases hs
      exact .yieldParent args _ p hw rfl
    · cases hs
      exact crash_fault hf
  | yieldPost p args =>
    rw [advance] at hs
    cases hs
    obtain ⟨c, hc, he⟩ := postEvent_eq (.threadYield t args) hf
    rw [he]
    exact .yieldPost p args c hc
  | exitParent =>
    rw [advance] at hs
    split at hs
    · rename_i x p n l hw
      cases hs
      exact .exitParent _ p hw rfl
    · rename_i x n l hw
      cases hs
      exact .exitOrphan _ hw rfl
    · cases hs
      exact crash_fault hf
  | exitPost p =>
    rw [advance] at hs
    cases hs
    obtain ⟨c, hc, he⟩ := postEvent_eq (.threadTerminated t) hf
    rw [he]
    exact .exitPost p c hc
  | destroy =>
    rw [advance] at hs
    cases hs
    exact .destroy
  | evTest =>
    rw [advance] at hs
    split at hs
    · rename_i x l hc
      cases hs
      exact .evSleep _ hc rfl
    · rename_i x l e q hc
      cases hs
      exact .evTake _ e q hc rfl
    · cases hs
      exact crash_fault hf
  | evWait =>
    rw [advance] at hs
    split at hs
    · rename_i x l hc
      split at hs
      · rename_i ht
        cases hs
        exact .evInterrupted _ hc rfl ht
      · cases hs
    · rename_i x l e q hc
      cases hs
      exact .evWoken _ hc (by simp)
    · cases hs
      exact crash_fault hf
  | evReturn =>
    rw [advance] at hs
    cases hs
    exact .evReturn

/-- The events queued to a thread, if it is a scheduler. -/
def eventQ (s : Device) (p : Pid) : List Event :=
  match s.scheduler p with
  | some c => c.eventQ
  | none => []

theorem eventQ_of_scheduler {p : Pid} {c : Scheduler} (hc : s.scheduler p = some c) :
    s.eventQ p = c.eventQ := by
  rw [eventQ, hc]

theorem eventQ_congr {p : Pid} (h : s'.scheduler p = s.scheduler p) : s'.eventQ p = s.eventQ p := by
  rw [eventQ, eventQ, h]

theorem eventQ_setScheduler_self (p : Pid) (c : Scheduler) :
    (s.setScheduler p c).eventQ p = c.eventQ := by
  apply eventQ_of_scheduler
  exact Function.update_self p (some c) s.scheduler

theorem eventQ_setScheduler_ne {p q : Pid} (hq : q ≠ p) (c : Scheduler) :
    (s.setScheduler p c).eventQ q = s.eventQ q := by
  apply eventQ_congr
  exact Function.update_of_ne hq (some c) s.scheduler

/-- A new record with the same queue. -/
theorem eventQ_setScheduler {p : Pid} {c c' : Scheduler} (hc : s.scheduler p = some c)
    (h : c'.eventQ = c.eventQ) (q : Pid) : (s.setScheduler p c').eventQ q = s.eventQ q := by
  by_cases hq : q = p
  · subst hq
    rw [eventQ_setScheduler_self, h, eventQ_of_scheduler hc]
  · exact eventQ_setScheduler_ne hq c'

/-- The queue of a new scheduler is empty, as that of a thread that is none. -/
theorem eventQ_register {p : Pid} {c : Scheduler} (hnone : ¬(s.scheduler p).isSome = true)
    (hc : c.eventQ = []) (q : Pid) : (s.setScheduler p c).eventQ q = s.eventQ q := by
  by_cases hq : q = p
  · subst hq
    rw [eventQ_setScheduler_self, hc, eventQ, Option.not_isSome_iff_eq_none.mp hnone]
  · exact eventQ_setScheduler_ne hq c

/-- What the stores of a switch leave alone: they change one context record or one task state. -/
structure Beside (s s' : Device) : Prop where
  heap : s'.heap = s.heap
  pc : s'.pc = s.pc
  batches : s'.batches = s.batches
  ready : s'.ready = s.ready
  hist : s'.hist = s.hist
  eventQ : ∀ p, s'.eventQ p = s.eventQ p
  scheduler : ∀ p, (s'.scheduler p).isSome = (s.scheduler p).isSome
  complist : ∀ p, (s'.worker p).map Worker.complist = (s.worker p).map Worker.complist

theorem beside_modifyContext (s : Device) (c : ContextRef) (f : UmsContext → UmsContext) :
    Beside s (s.modifyContext c f) := by
  cases c with
  | worker p =>
    cases hw : s.worker p with
    | none =>
      have hcrash : s.modifyContext (.worker p) f = s.crash := by rw [modifyContext, hw]
      rw [hcrash]
      exact ⟨rfl, rfl, rfl, rfl, rfl, fun _ => rfl, fun _ => rfl, fun _ => rfl⟩
    | some w =>
      rw [modifyContext_worker f hw]
      refine ⟨rfl, rfl, rfl, rfl, rfl, fun _ => rfl, fun _ => rfl, fun q => ?_⟩
      show (Function.update s.worker p _ q).map Worker.complist = _
      by_cases hq : q = p
      · rw [hq, Function.update_self, hw]
        rfl
      · rw [Function.update_of_ne hq]
  | scheduler p =>
    cases hc : s.scheduler p with
    | none =>
      have hcrash : s.modifyContext (.scheduler p) f = s.crash := by rw [modifyContext, hc]
      rw [hcrash]
      exact ⟨rfl, rfl, rfl, rfl, rfl, fun _ => rfl, fun _ => rfl, fun _ => rfl⟩
    | some c =>
      rw [modifyContext_scheduler f hc]
      refine ⟨rfl, rfl, rfl, rfl, rfl, ?_, isSome_setScheduler (by rw [hc]; rfl) _, fun _ => rfl⟩
      exact eventQ_setScheduler hc rfl

theorem beside_switchOp (s : Device) (src dst : ContextRef) (op : SwitchOp) :
    Beside s (s.switchOp src dst op) := by
  cases op with
  | assignParent | incSwitches | setIdle | setRunning =>
    rw [switchOp]
    apply beside_modifyContext
  | setInterruptible | wakeUp =>
    exact ⟨rfl, rfl, rfl, rfl, rfl, fun _ => rfl, fun _ => rfl, fun _ => rfl⟩

/-- The executions by `u` and the deliveries to it are what they were. -/
def SameFor (h h' : List (Obs Pid ListId Event)) (u : Pid) : Prop :=
  execsBy u h' = execsBy u h ∧ deliveries u h' = deliveries u h

theorem sameFor_ret {u : Pid} (hu : u ≠ t) (c : Call Pid) (r : Result)
    (h : List (Obs Pid ListId Event)) : SameFor h (.ret t c r :: h) u := by
  refine ⟨rfl, ?_⟩
  rw [deliveries, if_neg]
  rintro ⟨htu, -, -⟩
  exact hu htu.symm

theorem sameFor_wakes (k : Switching) (t u : Pid) (h : List (Obs Pid ListId Event)) :
    SameFor h (k.wakes t ++ h) u := by
  cases k <;> exact ⟨rfl, rfl⟩

/-- Only thread `t` goes on: nobody else's place, handed contexts and counts change, and nobody
else's entry in a table appears, goes or changes its completion list. -/
structure Own (s : Device) (t : Pid) (s' : Device) : Prop where
  pc : ∀ u, u ≠ t → s'.pc u = s.pc u
  batches : ∀ u, u ≠ t → s'.batches u = s.batches u
  ready : ∀ u, u ≠ t → s'.ready u = s.ready u
  scheduler : ∀ u, u ≠ t → (s'.scheduler u).isSome = (s.scheduler u).isSome
  complist : ∀ u, u ≠ t → (s'.worker u).map Worker.complist = (s.worker u).map Worker.complist
  hist : ∀ u, u ≠ t → SameFor s.hist s'.hist u

/-- A change of the place of `t` beside changes that are `t`'s own. -/
theorem Own.of_pc {c : Pc} (hpc : s'.pc = Function.update s.pc t c)
    (hb : ∀ u, u ≠ t → s'.batches u = s.batches u) (hr : ∀ u, u ≠ t → s'.ready u = s.ready u)
    (hs : ∀ u, u ≠ t → (s'.scheduler u).isSome = (s.scheduler u).isSome)
    (hw : ∀ u, u ≠ t → (s'.worker u).map Worker.complist = (s.worker u).map Worker.complist)
    (hh : ∀ u, u ≠ t → SameFor s.hist s'.hist u) : Own s t s' :=
  ⟨fun u hu => by rw [hpc, Function.update_of_ne hu], hb, hr, hs, hw, hh⟩

/-- The tables and what has been handed out are not touched at all. -/
theorem Own.go {c : Pc} (hpc : s'.pc = Function.update s.pc t c) (hb : s'.batches = s.batches)
    (hr : s'.ready = s.ready) (hs : s'.scheduler = s.scheduler) (hw : s'.worker = s.worker)
    (hh : ∀ u, u ≠ t → SameFor s.hist s'.hist u) : Own s t s' :=
  .of_pc hpc (fun u _ => congrFun hb u) (fun u _ => congrFun hr u) (fun u _ => by rw [hs])
    (fun u _ => by rw [hw]) hh

theorem Own.refl (s : Device) (t : Pid) : Own s t s :=
  ⟨fun _ _ => rfl, fun _ _ => rfl, fun _ _ => rfl, fun _ _ => rfl, fun _ _ => rfl,
    fun _ _ => ⟨rfl, rfl⟩⟩

theorem Own.task (s : Device) (t : Pid) (v : TaskState) : Own s t (s.setTask t v) :=
  ⟨fun _ _ => rfl, fun _ _ => rfl, fun _ _ => rfl, fun _ _ => rfl, fun _ _ => rfl,
    fun _ _ => ⟨rfl, rfl⟩⟩

theorem Own.ret (s : Device) (t : Pid) (c : Call Pid) (r : Result) : Own s t (s.ret t c r) :=
  .go rfl rfl rfl rfl rfl (fun _ hu => sameFor_ret hu c r s.hist)

/-- A store to the record of a scheduler `p` that is there, and a move of `t`. -/
theorem Own.setScheduler {p : Pid} {x : Scheduler} (hp : s.scheduler p = some x) (y : Scheduler)
    {c : Pc} {h : List (Obs Pid ListId Event)} (hh : ∀ u, u ≠ t → SameFor s.hist h u) :
    Own s t { (s.setScheduler p y) with pc := Function.update s.pc t c, hist := h } := by
  refine .of_pc rfl (fun _ _ => rfl) (fun _ _ => rfl) (fun u _ => ?_) (fun _ _ => rfl) hh
  exact isSome_setScheduler (by rw [hp]; rfl) y u

theorem Own.switching (k : Switching) (op : SwitchOp) (ops : List SwitchOp) :
    Own s t (s.stepSwitch t k op ops) := by
  have hb := beside_switchOp s (k.contexts t).1 (k.contexts t).2 op
  refine .of_pc (congrArg (Function.update · t _) hb.pc) (fun u _ => congrFun hb.batches u)
    (fun u _ => congrFun hb.ready u) (fun u _ => hb.scheduler u) (fun u _ => hb.complist u) ?_
  intro u _
  show SameFor s.hist (if op = .wakeUp then _ else _) u
  rw [hb.hist]
  split
  · exact sameFor_wakes k t u s.hist
  · exact ⟨rfl, rfl⟩

theorem Move.own {c : Pc} (h : s.Move t c s') : Own s t s' := by
  cases h with
  | enterAttach l w hw =>
    refine .of_pc rfl (fun _ _ => rfl) (fun _ _ => rfl) (fun _ _ => rfl) (fun u hu => ?_)
      (fun _ _ => ⟨rfl, rfl⟩)
    exact congrArg _ (Function.update_of_ne hu _ s.worker)
  | switching k op ops => exact .switching k op ops
  | enterAdd | yieldAdd | sleep | dqSleep | dqWoken | yieldParent | exitParent | evSleep
  | evWoken => exact .go rfl rfl rfl rfl rfl (fun _ _ => ⟨rfl, rfl⟩)
  | awake | wake | startReturn | dqInterrupted | dqReturn | exitOrphan | evInterrupted | evReturn =>
    exact .ret s t _ _
  | schedAttach l c hc => exact .setScheduler hc _ (fun _ _ => ⟨rfl, rfl⟩)
  | startup c hc => exact .setScheduler hc _ (fun _ _ => ⟨rfl, rfl⟩)
  | dqTake l c h he htake =>
    refine .of_pc rfl (fun u hu => ?_) (fun _ _ => rfl) (fun _ _ => rfl) (fun _ _ => rfl)
      (fun _ _ => ⟨rfl, rfl⟩)
    exact Function.update_of_ne hu _ s.batches
  | next c d h hnext =>
    refine .of_pc rfl (fun u hu => ?_) (fun _ _ => rfl) (fun _ _ => rfl) (fun _ _ => rfl)
      (fun u hu => sameFor_ret hu _ _ s.hist)
    exact Function.update_of_ne hu _ s.batches
  | close c h hnext =>
    refine .of_pc rfl (fun u hu => ?_) (fun u hu => ?_) (fun _ _ => rfl) (fun _ _ => rfl)
      (fun u hu => sameFor_ret hu _ _ s.hist)
    · exact Function.update_of_ne hu _ s.batches
    · exact Function.update_of_ne hu _ s.ready
  | yieldPost p args c hc => exact .setScheduler hc _ (fun _ _ => ⟨rfl, rfl⟩)
  | exitPost p c hc => exact .setScheduler hc _ (fun _ _ => ⟨rfl, rfl⟩)
  | destroy =>
    refine .of_pc rfl (fun _ _ => rfl) (fun _ _ => rfl) (fun _ _ => rfl) (fun u hu => ?_)
      (fun u hu => sameFor_ret hu _ _ s.hist)
    exact congrArg _ (Function.update_of_ne hu _ s.worker)
  | evTake c e q hc he => exact .setScheduler hc _ (fun _ _ => ⟨rfl, rfl⟩)

/-- The beginning of a call is its caller's own too. -/
theorem own_call {a : DeviceAct} (hs : s.call a = some s') : Own s a.caller s' := by
  have hret (c : Call Pid) (r : Result) : Own s a.caller (s.ret a.caller c r) := .ret s _ c r
  have hgo (c : Pc) : Own s a.caller (s.setPc a.caller c) :=
    .go rfl rfl rfl rfl rfl (fun _ _ => ⟨rfl, rfl⟩)
  cases a with
  | enterWorker t l node zero =>
    rw [Device.call] at hs
    split at hs <;> cases hs
    · exact hret _ _
    · refine .of_pc rfl (fun _ _ => rfl) (fun _ _ => rfl) (fun _ _ => rfl) (fun u hu => ?_)
        (fun _ _ => ⟨rfl, rfl⟩)
      exact congrArg _ (Function.update_of_ne hu _ s.worker)
  | enterScheduler t l =>
    rw [Device.call] at hs
    split at hs <;> cases hs
    · exact hret _ _
    · refine .of_pc rfl (fun _ _ => rfl) (fun _ _ => rfl) (fun u hu => ?_) (fun _ _ => rfl)
        (fun _ _ => ⟨rfl, rfl⟩)
      exact congrArg _ (Function.update_of_ne hu _ s.scheduler)
  | exec t w =>
    rw [Device.call] at hs
    split at hs <;> cases hs
    · refine .of_pc rfl (fun _ _ => rfl) (fun u hu => ?_) (fun _ _ => rfl) (fun _ _ => rfl)
        (fun u hu => ⟨if_neg hu.symm, rfl⟩)
      exact Function.update_of_ne hu _ s.ready
    · exact hret _ _
  | dqcontext t l =>
    rw [Device.call] at hs
    split at hs <;> cases hs
    · exact hgo _
    · exact hret _ _
  | nextContext t c =>
    rw [Device.call] at hs
    split at hs <;> cases hs
    · exact hgo _
    · exact hret _ _
  | yield t args =>
    rw [Device.call] at hs
    split at hs <;> cases hs
    · exact hgo _
    · exact hret _ _
  | exit t =>
    rw [Device.call] at hs
    split at hs <;> cases hs
    · exact hgo _
    · exact hret _ _
  | dqevent t =>
    rw [Device.call] at hs
    split at hs <;> cases hs
    · exact hgo _
    · exact hret _ _
  | run t => cases hs
  | signal t => cases hs

end Device

/-- An event that is off the queue and not delivered yet. -/
def Pc.inHand : Pc → ℕ
  | .evReturn => 1
  | _ => 0

namespace Device

variable {s s' : Device} {t : Pid}

/-- The events queued to a scheduler so far are those it has taken, in order, and those that are
still in its queue. `schedule()` is called on behalf of a switch only. -/
structure Delivered (s : Device) : Prop where
  taken : ∀ p, ∃ es, eventsTo p s.hist = es ++ s.eventQ p ∧
    es.length = deliveries p s.hist + (s.pc p).inHand
  suspends : ∀ p c, s.pc p = .schedule c ∨ s.pc p = .blocked c → c.suspends = true

theorem delivered_init : Delivered init :=
  ⟨fun _ => ⟨[], rfl, rfl⟩, fun p c h => by rcases h with h | h <;> cases h⟩

/-- Thread `t` goes on to `c`, and what has been posted and delivered stays. -/
theorem Delivered.keep (hD : Delivered s) {c : Pc} (hpc : s'.pc = Function.update s.pc t c)
    (hc : c.inHand = (s.pc t).inHand)
    (hsus : ∀ k, c = .schedule k ∨ c = .blocked k → k.suspends = true)
    (hev : ∀ p, eventsTo p s'.hist = eventsTo p s.hist)
    (hdel : ∀ p, deliveries p s'.hist = deliveries p s.hist)
    (hq : ∀ p, s'.eventQ p = s.eventQ p) : Delivered s' := by
  constructor
  · intro p
    obtain ⟨es, he, hlen⟩ := hD.taken p
    refine ⟨es, by rw [hev, hq, he], ?_⟩
    rw [hdel, hlen, hpc]
    by_cases hp : p = t
    · rw [hp, Function.update_self, hc]
    · rw [Function.update_of_ne hp]
  · intro p k hk
    rw [hpc] at hk
    by_cases hp : p = t
    · rw [hp, Function.update_self] at hk
      exact hsus k hk
    · rw [Function.update_of_ne hp] at hk
      exact hD.suspends p k hk

/-- An event goes to the end of the queue of `p`. -/
theorem Delivered.post (hD : Delivered s) {p : Pid} {e : Event} {c : Pc}
    (hpc : s'.pc = Function.update s.pc t c) (hc : c.inHand = 0) (ht : (s.pc t).inHand = 0)
    (hsus : ∀ k, c ≠ .schedule k ∧ c ≠ .blocked k)
    (hev : ∀ q, eventsTo q s'.hist = eventsTo q s.hist ++ if q = p then [e] else [])
    (hdel : ∀ q, deliveries q s'.hist = deliveries q s.hist)
    (hq : ∀ q, s'.eventQ q = s.eventQ q ++ if q = p then [e] else []) : Delivered s' := by
  constructor
  · intro q
    obtain ⟨es, he, hlen⟩ := hD.taken q
    refine ⟨es, by rw [hev, hq, he, List.append_assoc], ?_⟩
    rw [hdel, hlen, hpc]
    by_cases hqt : q = t
    · rw [hqt, Function.update_self, hc, ht]
    · rw [Function.update_of_ne hqt]
  · intro q k hk
    rw [hpc] at hk
    by_cases hqt : q = t
    · rw [hqt, Function.update_self] at hk
      exact absurd hk (not_or.mpr (hsus k))
    · rw [Function.update_of_ne hqt] at hk
      exact hD.suspends q k hk

theorem deliveries_ret {c : Call Pid} {r : Result} (h : c ≠ .dqevent ∨ r ≠ .ok) (u p : Pid)
    (hist : List (Obs Pid ListId Event)) :
    deliveries p (.ret u c r :: hist) = deliveries p hist := by
  rw [deliveries, if_neg]
  rintro ⟨-, hc, hr⟩
  exact h.elim (absurd hc) (absurd hr)

/-- The end of a call that delivers nothing. -/
theorem Delivered.ret (hD : Delivered s) (t : Pid) {c : Call Pid} {r : Result}
    (ht : (s.pc t).inHand = 0) (h : c ≠ .dqevent ∨ r ≠ .ok) : Delivered (s.ret t c r) :=
  hD.keep rfl ht.symm (fun _ hk => by rcases hk with hk | hk <;> cases hk) (fun _ => rfl)
    (fun p => deliveries_ret h t p s.hist) (fun _ => rfl)

/-- A move within a call that posts and takes no event. -/
theorem Delivered.go (hD : Delivered s) {c : Pc} (hpc : s'.pc = Function.update s.pc t c)
    (hc : c.inHand = 0) (ht : (s.pc t).inHand = 0)
    (hsus : ∀ k, c = .schedule k ∨ c = .blocked k → k.suspends = true)
    (hh : s'.hist = s.hist ∨ ∃ l, s'.hist = .queued t l :: s.hist)
    (hq : ∀ p, s'.eventQ p = s.eventQ p) : Delivered s' := by
  refine hD.keep hpc (hc.trans ht.symm) hsus ?_ ?_ hq
  · intro p
    rcases hh with hh | ⟨l, hh⟩ <;> rw [hh]
    rfl
  · intro p
    rcases hh with hh | ⟨l, hh⟩ <;> rw [hh]
    rfl

theorem eventsTo_wakes (k : Switching) (t p : Pid) (h : List (Obs Pid ListId Event)) :
    eventsTo p (k.wakes t ++ h) = eventsTo p h := by
  cases k <;> rfl

theorem deliveries_wakes (k : Switching) (t p : Pid) (h : List (Obs Pid ListId Event)) :
    deliveries p (k.wakes t ++ h) = deliveries p h := by
  cases k <;> rfl

/-- After the stores of a switch come the insertion, `schedule()` for the call, or the end. -/
theorem Switching.after_suspends (k : Switching) (c : Call Pid)
    (h : k.after = .schedule c ∨ k.after = .blocked c) : c.suspends = true := by
  cases k with
  | exec w =>
    rcases h with h | h
    · cases h
      rfl
    · cases h
  | enter | yield | exit => rcases h with h | h <;> cases h

theorem Delivered.switching (hD : Delivered s) (k : Switching) (op : SwitchOp)
    (ops : List SwitchOp) (hpc : s.pc t = .switching k (op :: ops)) :
    Delivered (s.stepSwitch t k op ops) := by
  have hb := beside_switchOp s (k.contexts t).1 (k.contexts t).2 op
  refine hD.keep (congrArg (Function.update · t _) hb.pc) ?_ ?_ ?_ ?_ hb.eventQ
  · rw [hpc]
    split
    · cases k <;> rfl
    · rfl
  · intro c hc
    split at hc
    · exact Switching.after_suspends k c hc
    · rcases hc with hc | hc <;> cases hc
  · intro p
    rw [← hb.hist]
    show eventsTo p (if op = .wakeUp then _ else _) = _
    split
    · exact eventsTo_wakes k t p _
    · rfl
  · intro p
    rw [← hb.hist]
    show deliveries p (if op = .wakeUp then _ else _) = _
    split
    · exact deliveries_wakes k t p _
    · rfl

theorem eventQ_post {p : Pid} {c : Scheduler} (hc : s.scheduler p = some c) (e : Event) (q : Pid) :
    (s.setScheduler p { c with eventQ := c.eventQ ++ [e] }).eventQ q =
      s.eventQ q ++ if q = p then [e] else [] := by
  by_cases hq : q = p
  · subst hq
    rw [eventQ_setScheduler_self, eventQ_of_scheduler hc, if_pos rfl]
  · rw [eventQ_setScheduler_ne hq, if_neg hq, List.append_nil]

theorem eventsTo_posted {p q : Pid} {e : Event} {h h' : List (Obs Pid ListId Event)}
    (hh : eventsTo q h' = if p = q then eventsTo q h ++ [e] else eventsTo q h) :
    eventsTo q h' = eventsTo q h ++ if q = p then [e] else [] := by
  rw [hh]
  by_cases hq : q = p
  · rw [if_pos hq.symm, if_pos hq]
  · rw [if_neg (Ne.symm hq), if_neg hq, List.append_nil]

/-- The first event leaves the queue, and is in the hands of the thread until the call returns. -/
theorem Delivered.take (hD : Delivered s) {c : Scheduler} {e : Event} {q : List Event}
    (hpc : s.pc t = .evTest) (hc : s.scheduler t = some c) (he : c.eventQ = e :: q) :
    Delivered ((s.setScheduler t { c with eventQ := q }).setPc t .evReturn) := by
  constructor
  · intro p
    obtain ⟨es, hes, hlen⟩ := hD.taken p
    by_cases hp : p = t
    · subst hp
      refine ⟨es ++ [e], ?_, ?_⟩
      · rw [eventQ_of_scheduler hc, he] at hes
        have hq : ((s.setScheduler p { c with eventQ := q }).setPc p .evReturn).eventQ p = q :=
          eventQ_setScheduler_self p _
        rw [hq, List.append_assoc]
        exact hes
      · have hnew : ((s.setScheduler p { c with eventQ := q }).setPc p .evReturn).pc p =
            .evReturn := Function.update_self p _ s.pc
        rw [List.length_append, hlen, hnew, hpc]
        rfl
    · refine ⟨es, ?_, ?_⟩
      · exact hes.trans (congrArg (es ++ ·) (eventQ_setScheduler_ne hp _).symm)
      · rw [hlen]
        exact congrArg (deliveries p s.hist + ·.inHand) (Function.update_of_ne hp _ s.pc).symm
  · intro p k hk
    by_cases hp : p = t
    · subst hp
      have hnew : ((s.setScheduler p { c with eventQ := q }).setPc p .evReturn).pc p =
          .evReturn := Function.update_self p _ s.pc
      rw [hnew] at hk
      rcases hk with hk | hk <;> cases hk
    · refine hD.suspends p k ?_
      rw [← Function.update_of_ne hp .evReturn s.pc]
      exact hk

/-- The call returns with the event. -/
theorem Delivered.deliver (hD : Delivered s) (hpc : s.pc t = .evReturn) :
    Delivered (s.ret t .dqevent .ok) := by
  constructor
  · intro p
    obtain ⟨es, hes, hlen⟩ := hD.taken p
    refine ⟨es, hes, ?_⟩
    show es.length =
      (if t = p ∧ Call.dqevent = Call.dqevent ∧ Result.ok = Result.ok then _ else _) +
        (Function.update s.pc t .user p).inHand
    by_cases hp : p = t
    · subst hp
      rw [if_pos ⟨rfl, rfl, rfl⟩, Function.update_self, hlen, hpc]
      rfl
    · rw [if_neg (fun h => hp h.1.symm), Function.update_of_ne hp, hlen]
  · intro p k hk
    by_cases hp : p = t
    · subst hp
      have hnew : (s.ret p .dqevent .ok).pc p = .user := Function.update_self p _ s.pc
      rw [hnew] at hk
      rcases hk with hk | hk <;> cases hk
    · refine hD.suspends p k ?_
      rw [← Function.update_of_ne hp .user s.pc]
      exact hk

theorem not_suspended {c : Pc} (h : ∀ k, c ≠ .schedule k ∧ c ≠ .blocked k) (k : Call Pid)
    (hk : c = .schedule k ∨ c = .blocked k) : k.suspends = true :=
  absurd hk (not_or.mpr (h k))

theorem Delivered.move (hD : Delivered s) {c : Pc} (hpc : s.pc t = c) (h : s.Move t c s') :
    Delivered s' := by
  -- a call that `schedule()` suspends is not `dqevent`
  have hret (c : Call Pid) (hc : s.pc t = .schedule c ∨ s.pc t = .blocked c) :
      Delivered (s.ret t c .ok) := by
    have hsus := hD.suspends t c hc
    refine hD.ret t ?_ (Or.inl ?_)
    · rcases hc with hc | hc <;> rw [hc] <;> rfl
    · rintro rfl
      cases hsus
  cases h with
  | enterAttach l w hw =>
    exact hD.go rfl rfl (by rw [hpc]; rfl) (not_suspended (by simp)) (Or.inl rfl) (fun _ => rfl)
  | switching k op ops => exact hD.switching k op ops hpc
  | enterAdd l h hadd =>
    refine hD.go rfl rfl (by rw [hpc]; rfl) ?_ (Or.inr ⟨l, rfl⟩) (fun _ => rfl)
    rintro k (hk | hk) <;> cases hk
    rfl
  | yieldAdd x l h hw hadd =>
    refine hD.go rfl rfl (by rw [hpc]; rfl) ?_ (Or.inr ⟨l, rfl⟩) (fun _ => rfl)
    rintro k (hk | hk) <;> cases hk
    rfl
  | sleep c ht =>
    refine hD.go rfl rfl (by rw [hpc]; rfl) ?_ (Or.inl rfl) (fun _ => rfl)
    rintro k (hk | hk) <;> cases hk
    exact hD.suspends t c (Or.inl hpc)
  | awake c ht => exact hret c (Or.inl hpc)
  | wake c ht => exact hret c (Or.inr hpc)
  | schedAttach l c hc =>
    exact hD.go rfl rfl (by rw [hpc]; rfl) (not_suspended (by simp)) (Or.inl rfl)
      (eventQ_setScheduler hc rfl)
  | startup c hc =>
    exact hD.post rfl rfl (by rw [hpc]; rfl) (by simp) (fun _ => eventsTo_posted rfl)
      (fun _ => rfl) (eventQ_post hc _)
  | startReturn => exact hD.ret t (by rw [hpc]; rfl) (Or.inl (by simp))
  | dqSleep l he =>
    exact hD.go rfl rfl (by rw [hpc]; rfl) (not_suspended (by simp)) (Or.inl rfl) (fun _ => rfl)
  | dqTake l c h he htake =>
    exact hD.go rfl rfl (by rw [hpc]; rfl) (not_suspended (by simp)) (Or.inl rfl) (fun _ => rfl)
  | dqInterrupted l he ht => exact hD.ret t (by rw [hpc]; rfl) (Or.inl (by simp))
  | dqWoken l he =>
    exact hD.go rfl rfl (by rw [hpc]; rfl) (not_suspended (by simp)) (Or.inl rfl) (fun _ => rfl)
  | dqReturn => exact hD.ret t (by rw [hpc]; rfl) (Or.inl (by simp))
  | next c d h hnext =>
    exact hD.keep rfl (by rw [hpc]; rfl) (not_suspended (by simp)) (fun _ => rfl)
      (fun p => deliveries_ret (Or.inl (by simp)) t p s.hist) (fun _ => rfl)
  | close c h hnext =>
    exact hD.keep rfl (by rw [hpc]; rfl) (not_suspended (by simp)) (fun _ => rfl)
      (fun p => deliveries_ret (Or.inl (by simp)) t p s.hist) (fun _ => rfl)
  | yieldParent args w p hw hp =>
    exact hD.go rfl rfl (by rw [hpc]; rfl) (not_suspended (by simp)) (Or.inl rfl) (fun _ => rfl)
  | yieldPost p args c hc =>
    exact hD.post rfl rfl (by rw [hpc]; rfl) (by simp) (fun _ => eventsTo_posted rfl)
      (fun _ => rfl) (eventQ_post hc _)
  | exitParent w p hw hp =>
    exact hD.go rfl rfl (by rw [hpc]; rfl) (not_suspended (by simp)) (Or.inl rfl) (fun _ => rfl)
  | exitOrphan w hw hp => exact hD.ret t (by rw [hpc]; rfl) (Or.inl (by simp))
  | exitPost p c hc =>
    exact hD.post rfl rfl (by rw [hpc]; rfl) (by simp) (fun _ => eventsTo_posted rfl)
      (fun _ => rfl) (eventQ_post hc _)
  | destroy =>
    exact hD.keep rfl (by rw [hpc]; rfl) (not_suspended (by simp)) (fun _ => rfl)
      (fun p => deliveries_ret (Or.inl (by simp)) t p s.hist) (fun _ => rfl)
  | evSleep c hc he =>
    exact hD.go rfl rfl (by rw [hpc]; rfl) (not_suspended (by simp)) (Or.inl rfl) (fun _ => rfl)
  | evTake c e q hc he => exact hD.take hpc hc he
  | evInterrupted c hc he ht => exact hD.ret t (by rw [hpc]; rfl) (Or.inr (by simp))
  | evWoken c hc he =>
    exact hD.go rfl rfl (by rw [hpc]; rfl) (not_suspended (by simp)) (Or.inl rfl) (fun _ => rfl)
  | evReturn => exact hD.deliver hpc

/-- The beginning of a call posts and delivers nothing. -/
theorem Delivered.call (hD : Delivered s) {a : DeviceAct} (hpc : s.pc a.caller = .user)
    (hs : s.call a = some s') : Delivered s' := by
  have hin : (s.pc a.caller).inHand = 0 := by
    rw [hpc]
    rfl
  have hret (c : Call Pid) (r : Result) (hr : r ≠ .ok) : Delivered (s.ret a.caller c r) :=
    hD.ret a.caller hin (Or.inr hr)
  have hgo (c : Pc) (hc : c.inHand = 0) (hk : ∀ k, c ≠ .schedule k ∧ c ≠ .blocked k) :
      Delivered (s.setPc a.caller c) :=
    hD.go rfl hc hin (not_suspended hk) (Or.inl rfl) (fun _ => rfl)
  cases a with
  | enterWorker t l node zero =>
    rw [Device.call] at hs
    split at hs
    · cases hs
      exact hret _ _ (by simp)
    · cases hs
      exact hD.go rfl rfl hin (not_suspended (by simp)) (Or.inl rfl) (fun _ => rfl)
  | enterScheduler t l =>
    rw [Device.call] at hs
    split at hs
    · cases hs
      exact hret _ _ (by simp)
    · rename_i hnone
      cases hs
      exact hD.go rfl rfl hin (not_suspended (by simp)) (Or.inl rfl)
        (eventQ_register hnone (by rfl))
  | dqcontext t l =>
    rw [Device.call] at hs
    split at hs <;> cases hs
    · exact hgo _ rfl (by simp)
    · exact hret _ _ (by simp)
  | nextContext t c =>
    rw [Device.call] at hs
    split at hs <;> cases hs
    · exact hgo _ rfl (by simp)
    · exact hret _ _ (by simp)
  | exec t w =>
    rw [Device.call] at hs
    split at hs <;> cases hs
    · exact hD.keep rfl hin.symm (not_suspended (by simp)) (fun _ => rfl) (fun _ => rfl)
        (fun _ => rfl)
    · exact hret _ _ (by simp)
  | yield t args =>
    rw [Device.call] at hs
    split at hs <;> cases hs
    · exact hgo _ rfl (by simp)
    · exact hret _ _ (by simp)
  | exit t =>
    rw [Device.call] at hs
    split at hs <;> cases hs
    · exact hgo _ rfl (by simp)
    · exact hret _ _ (by simp)
  | dqevent t =>
    rw [Device.call] at hs
    split at hs <;> cases hs
    · exact hgo _ rfl (by simp)
    · exact hret _ _ (by simp)
  | run t => cases hs
  | signal t => cases hs

theorem fault_of_reachable (hr : DeviceReachable s) : s.fault = false := by
  obtain ⟨σ, -, -, hA⟩ := reachable_handoff hr
  exact hA.fault

theorem step_signal (hs : s.step (.signal t) = some s') :
    s.task t = .interruptible ∧ s' = s.setTask t .running := by
  rw [step] at hs
  split at hs
  · rename_i ht
    exact ⟨ht, (Option.some.inj hs).symm⟩
  · cases hs

theorem step_call {a : DeviceAct} (ha : ∀ t, a ≠ .run t ∧ a ≠ .signal t)
    (hs : s.step a = some s') : s.pc a.caller = .user ∧ s.call a = some s' := by
  cases a with
  | run t => exact absurd rfl (ha t).1
  | signal t => exact absurd rfl (ha t).2
  | _ =>
    simp only [step] at hs
    split at hs
    · rename_i hpc
      exact ⟨hpc, hs⟩
    · cases hs

/-- The three kinds of steps. -/
theorem step_cases {a : DeviceAct} (hs : s.step a = some s') :
    (∃ t, a = .run t) ∨ (∃ t, a = .signal t) ∨ s.pc a.caller = .user ∧ s.call a = some s' := by
  cases a with
  | run t => exact Or.inl ⟨t, rfl⟩
  | signal t => exact Or.inr (Or.inl ⟨t, rfl⟩)
  | _ => exact Or.inr (Or.inr (step_call (by simp) hs))

/-- In every run that follows the protocol, events are taken in the order they are posted. -/
theorem delivered_of_reachable (hr : DeviceReachable s) : Delivered s := by
  have hboth : DeviceReachable s ∧ Delivered s := by
    apply hr.invariant (fun s => DeviceReachable s ∧ Delivered s) ⟨.refl, delivered_init⟩
    intro s a s' hI hok hs
    have hr' : DeviceReachable s' := .tail a hI.1 hok hs
    refine ⟨hr', ?_⟩
    rcases step_cases hs with ⟨t, rfl⟩ | ⟨t, rfl⟩ | ⟨hpc, hcall⟩
    · exact hI.2.move rfl (move_of_run hs (fault_of_reachable hr'))
    · obtain ⟨-, rfl⟩ := step_signal hs
      exact ⟨hI.2.taken, hI.2.suspends⟩
    · exact hI.2.call hpc hcall
  exact hboth.2

/-- A scheduler that has executed one worker for each event it has got finds exactly one event in
its queue, and the startup event only there and then. -/
theorem next_event (hr : DeviceReachable s) {c : Scheduler} (hpc : s.pc t = .evTest)
    (hc : s.scheduler t = some c) (hn : (execsBy t s.hist).length = deliveries t s.hist) :
    ∃ e, c.eventQ = [e] ∧ (e = .schedulerStartup ↔ deliveries t s.hist = 0) := by
  obtain ⟨σ, hI, hH, hA⟩ := reachable_handoff hr
  obtain ⟨es, hes, hlen⟩ := (delivered_of_reachable hr).taken t
  rw [eventQ_of_scheduler hc] at hes
  rw [hpc, show Pc.evTest.inHand = 0 from rfl, Nat.add_zero] at hlen
  have hst : σ.started t = true := by
    rw [hA.started t, started, hc, hpc]
    rfl
  obtain ⟨e₀, es', hev, he₀, hmap⟩ := hH.events t hst
  -- the thread is not executing anybody, so no answer is outstanding
  have hout : outstanding t σ.hist = none := by
    rw [hH.out t]
    apply expected_of_idle
    rw [hA.active hpc (fun _ => rfl)]
    rfl
  rw [hout, hA.hist, Option.toList_none, List.map_nil, List.append_nil] at hmap
  rw [hA.hist, hes] at hev
  have hes' : es'.length = deliveries t s.hist := by
    rw [← hn, ← List.length_map (f := Event.context), hmap, List.length_map]
  have hq : c.eventQ.length = 1 := by
    have hl := congrArg List.length hev
    rw [List.length_append, List.length_cons] at hl
    omega
  obtain ⟨e, he⟩ := List.length_eq_one_iff.mp hq
  refine ⟨e, he, ?_⟩
  rw [he] at hev
  cases es with
  | nil =>
    -- it is the first event
    obtain rfl : e = e₀ := (List.cons.inj hev).1
    refine iff_of_true ?_ hlen.symm
    cases e with
    | schedulerStartup => rfl
    | threadYield | threadTerminated => cases he₀
  | cons x es =>
    rw [List.cons_append, List.cons.injEq] at hev
    have hmem : Event.context e ∈ (execsBy t s.hist).map some := by
      rw [← hmap, ← hev.2]
      apply List.mem_map_of_mem
      simp
    obtain ⟨w, -, hw⟩ := List.mem_map.mp hmem
    refine iff_of_false ?_ ?_
    · rintro rfl
      cases hw
    · rw [← hlen]
      simp

theorem worker_of_handed (hr : DeviceReachable s) {c : Pid}
    (h : c ∈ s.ready t ∨ c ∈ (s.batches t).flatten) : (s.worker c).isSome := by
  obtain ⟨σ, hI, -, hA⟩ := reachable_handoff hr
  rw [← hA.ready, ← hA.batches] at h
  have hp := hI.handed_of_mem t c h
  obtain ⟨x, hx⟩ := hA.worker_of_place c (by simp [hp])
  rw [hx]
  rfl

/-- A worker that ends has a scheduler to go back to. -/
theorem parent_of_exit (hr : DeviceReachable s) {w : Worker} (hpc : s.pc t = .exitParent)
    (hw : s.worker t = some w) : w.context.parent ≠ .null := by
  obtain ⟨σ, hI, -, hA⟩ := reachable_handoff hr
  obtain ⟨p, -, -, hp⟩ := hA.parent_under hI t w hw (hA.active hpc (fun _ => rfl))
  rw [hp]
  simp

end Device

/-- The places at which the task of a thread may be `TASK_INTERRUPTIBLE`. -/
def Pc.rests : Pc → Bool
  | .switching (.exit _) _ => false
  | .switching _ _ | .enterAdd _ | .yieldAdd | .schedule _ | .blocked _ => true
  | .dqWait _ | .evWait => true
  | _ => false

namespace Device

variable {s s' : Device} {t : Pid}

theorem call_task {a : DeviceAct} (h : s.call a = some s') : s'.task = s.task := by
  cases a with
  | run | signal => cases h
  | _ =>
    rw [call] at h
    split at h <;> cases h <;> rfl

theorem modifyContext_task (s : Device) (c : ContextRef) (f : UmsContext → UmsContext) :
    (s.modifyContext c f).task = s.task := by
  unfold modifyContext
  repeat' split
  all_goals rfl

/-- A step of a thread can wake another one but not make it sleep. -/
theorem Move.task_other {c : Pc} (h : s.Move t c s') {u : Pid} (hu : u ≠ t) :
    s'.task u = s.task u ∨ s'.task u = .running := by
  cases h with
  | switching k op ops =>
    have hsrc : (k.contexts t).1.task = t := by cases k <;> rfl
    cases op with
    | assignParent | incSwitches | setIdle | setRunning =>
      exact Or.inl (congrFun (modifyContext_task s _ _) u)
    | setInterruptible =>
      refine Or.inl (Function.update_of_ne ?_ _ _)
      rw [hsrc]
      exact hu
    | wakeUp =>
      by_cases hd : u = (k.contexts t).2.task
      · rw [hd]
        exact Or.inr (Function.update_self _ _ _)
      · exact Or.inl (Function.update_of_ne hd _ _)
  | dqSleep | dqWoken | evSleep | evWoken => exact Or.inl (Function.update_of_ne hu _ _)
  | _ => exact Or.inl rfl

/-- A thread is awake when it goes on to a place where it does not rest. -/
theorem Move.task_self {c : Pc} (h : s.Move t c s') (hc : c.rests = false → s.task t = .running)
    (hexit : ∀ p ops, c = .switching (.exit p) ops → SwitchOp.setInterruptible ∉ ops)
    (hr : (s'.pc t).rests = false) : s'.task t = .running := by
  have hat {x : Pc} (hx : x.rests = true) (hpc : s'.pc = Function.update s.pc t x) :
      s'.task t = .running := by
    rw [hpc, Function.update_self, hx] at hr
    cases hr
  cases h with
  | enterAttach | enterAdd | yieldAdd | sleep | dqSleep | evSleep => exact hat rfl rfl
  | yieldPost => exact hat rfl rfl
  | switching k op ops =>
    have hb := beside_switchOp s (k.contexts t).1 (k.contexts t).2 op
    cases k with
    | exit p =>
      -- the thread may wake itself, but it does not suspend itself
      have hrun := hc rfl
      have hop := hexit p _ rfl
      cases op with
      | assignParent | incSwitches | setIdle | setRunning =>
        exact (congrFun (modifyContext_task s _ _) t).trans hrun
      | setInterruptible => exact absurd List.mem_cons_self hop
      | wakeUp =>
        by_cases hd : t = p
        · subst hd
          exact Function.update_self _ _ _
        · exact (Function.update_of_ne hd _ _).trans hrun
    | enter l | exec w | yield p =>
      refine hat ?_ (congrArg (Function.update · t _) hb.pc)
      split <;> rfl
  | awake c ht | wake c ht => exact ht
  | dqInterrupted l he ht => exact ht
  | evInterrupted c hcs he ht => exact ht
  | dqWoken | evWoken => exact Function.update_self _ _ _
  | _ => exact hc rfl

/-- A thread that does not rest is awake. -/
theorem awake_of_reachable (hr : DeviceReachable s) (t : Pid) (h : (s.pc t).rests = false) :
    s.task t = .running := by
  have hboth : DeviceReachable s ∧ ∀ t, (s.pc t).rests = false → s.task t = .running := by
    apply hr.invariant
      (fun s => DeviceReachable s ∧ ∀ t, (s.pc t).rests = false → s.task t = .running)
      ⟨.refl, fun _ _ => rfl⟩
    intro s a s' hI hok hs
    have hr' : DeviceReachable s' := .tail a hI.1 hok hs
    refine ⟨hr', fun u hu => ?_⟩
    rcases step_cases hs with ⟨t, rfl⟩ | ⟨t, rfl⟩ | ⟨hpc, hcall⟩
    · have hm := move_of_run hs (fault_of_reachable hr')
      by_cases hut : u = t
      · subst hut
        refine hm.task_self (hI.2 u) (fun p ops hops => ?_) hu
        obtain ⟨σ, -, -, hA⟩ := reachable_handoff hI.1
        have hok := hA.pc u
        rw [hops] at hok
        intro hmem
        have hmem' := hok.1.subset hmem
        simp [wakeUpContext] at hmem'
      · rw [hm.own.pc u hut] at hu
        rcases hm.task_other hut with htask | htask
        · rw [htask]
          exact hI.2 u hu
        · exact htask
    · obtain ⟨-, rfl⟩ := step_signal hs
      by_cases hut : u = t
      · subst hut
        exact Function.update_self _ _ _
      · exact (Function.update_of_ne hut _ _).trans (hI.2 u hu)
    · rw [call_task hcall]
      by_cases hut : u = a.caller
      · rw [hut]
        exact hI.2 a.caller (by rw [hpc]; rfl)
      · rw [(own_call hcall).pc u hut] at hu
        exact hI.2 u hu
  exact hboth.2 t h

end Device

end LinuxUms
