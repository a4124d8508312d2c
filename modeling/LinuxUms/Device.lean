import LinuxUms.Complist
import LinuxUms.EventQueue
import LinuxUms.Handoff
import LinuxUms.Transition

/-! One open device as a machine of threads. A step is one lock-protected piece of a call,
or one store of `prepare_switch_context`. User copies, allocations and proc links succeed,
and every completion list id is in use; what users do with the contexts they are handed is
recorded in `batches` and `ready`, and what the threads did in `hist`. -/
namespace LinuxUms

open KernelList

inductive ContextState where
  | running
  | idle
  deriving DecidableEq

inductive TaskState where
  | running
  | interruptible
  deriving DecidableEq

/-- `ums_context.parent`. The context is not zeroed when it is allocated, so a parent that
was never assigned is null or any other value. -/
inductive Parent where
  | null
  | junk
  | context (p : Pid)
  deriving DecidableEq

/-- `switches` is an `atomic_t`. -/
structure UmsContext where
  state : ContextState
  parent : Parent
  switches : BitVec 32
  deriving DecidableEq

/-- `struct ums_worker`; `complist` is `none` until it is assigned. -/
structure Worker where
  context : UmsContext
  complist : Option ListId
  deriving DecidableEq

structure Scheduler where
  context : UmsContext
  complist : Option ListId
  eventQ : List Event
  deriving DecidableEq

/-- A context by the table it is in. -/
inductive ContextRef where
  | worker (p : Pid)
  | scheduler (p : Pid)
  deriving DecidableEq

/-- `context->task`, named by its pid. -/
def ContextRef.task : ContextRef → Pid
  | .worker p | .scheduler p => p

/-- The stores of `prepare_switch_context`. -/
inductive SwitchOp where
  | assignParent
  | incSwitches
  | setIdle
  | setInterruptible
  | setRunning
  | wakeUp
  deriving DecidableEq

def prepareSuspendContext : List SwitchOp := [.setIdle, .setInterruptible]

def wakeUpContext : List SwitchOp := [.setRunning, .wakeUp]

def prepareSwitchContext : List SwitchOp :=
  [.assignParent, .incSwitches] ++ prepareSuspendContext ++ wakeUpContext

/-- The call a sequence of switch stores belongs to. -/
inductive Switching where
  | enter (l : ListId)
  | exec (w : Pid)
  | yield (p : Pid)
  | exit (p : Pid)
  deriving DecidableEq

/-- Where a thread is. -/
inductive Pc where
  | user
  -- the worker is in the table; its completion list is to be found and attached
  | enterAttach (l : ListId)
  | switching (k : Switching) (ops : List SwitchOp)
  | enterAdd (l : ListId)
  | yieldAdd
  -- about to call `schedule()`, and off the processor
  | schedule (c : Call Pid)
  | blocked (c : Call Pid)
  | schedAttach (l : ListId)
  | startup
  | startReturn
  -- `do_dequeue_ums_complist_context`: the locked test and removal, and the wait
  | dqTest (l : ListId)
  | dqWait (l : ListId)
  | dqReturn
  | nextContext (c : Pid)
  -- `ums_worker_yield` and `ums_worker_end` before they read `parent`
  | yieldParent (args : UserPtr)
  | yieldPost (p : Pid) (args : UserPtr)
  | exitParent
  | exitPost (p : Pid)
  | destroy
  -- `do_dequeue_ums_sched_event`
  | evTest
  | evWait
  | evReturn
  deriving DecidableEq

/-- `hist` has the latest observation first. `fault` is set by a step that goes through a
pointer that leads to no list node or no context. -/
structure Device where
  heap : Heap Node
  worker : Pid → Option Worker
  scheduler : Pid → Option Scheduler
  task : Pid → TaskState
  pc : Pid → Pc
  batches : Pid → List (List Pid)
  ready : Pid → List Pid
  hist : List (Obs Pid ListId Event)
  fault : Bool

namespace Device

def init : Device where
  heap n := ⟨.node n, .node n⟩
  worker _ := none
  scheduler _ := none
  task _ := .running
  pc _ := .user
  batches _ := []
  ready _ := []
  hist := []
  fault := false

def setPc (s : Device) (t : Pid) (c : Pc) : Device :=
  { s with pc := Function.update s.pc t c }

def setTask (s : Device) (t : Pid) (v : TaskState) : Device :=
  { s with task := Function.update s.task t v }

def log (s : Device) (o : Obs Pid ListId Event) : Device :=
  { s with hist := o :: s.hist }

def ret (s : Device) (t : Pid) (c : Call Pid) (r : Result) : Device :=
  (s.log (.ret t c r)).setPc t .user

def crash (s : Device) : Device :=
  { s with fault := true }

def setWorker (s : Device) (t : Pid) (w : Option Worker) : Device :=
  { s with worker := Function.update s.worker t w }

def setScheduler (s : Device) (t : Pid) (c : Scheduler) : Device :=
  { s with scheduler := Function.update s.scheduler t (some c) }

def modifyContext (s : Device) (c : ContextRef) (f : UmsContext → UmsContext) : Device :=
  match c with
  | .worker p =>
    match s.worker p with
    | some w => s.setWorker p (some { w with context := f w.context })
    | none => s.crash
  | .scheduler p =>
    match s.scheduler p with
    | some c => s.setScheduler p { c with context := f c.context }
    | none => s.crash

/-- One store of `prepare_switch_context(src, dst)`. -/
def switchOp (s : Device) (src dst : ContextRef) : SwitchOp → Device
  | .assignParent => s.modifyContext dst (fun x => { x with parent := .context src.task })
  | .incSwitches => s.modifyContext src (fun x => { x with switches := x.switches + 1 })
  | .setIdle => s.modifyContext src (fun x => { x with state := .idle })
  | .setInterruptible => s.setTask src.task .interruptible
  | .setRunning => s.modifyContext dst (fun x => { x with state := .running })
  | .wakeUp => s.setTask dst.task .running

end Device

/-- The contexts `from` and `to` of the switch that thread `t` makes. Entering only suspends
and ending only wakes, so there the other argument is not used. -/
def Switching.contexts (t : Pid) : Switching → ContextRef × ContextRef
  | .enter _ => (.worker t, .worker t)
  | .exec w => (.scheduler t, .worker w)
  | .yield p => (.worker t, .scheduler p)
  | .exit p => (.worker t, .scheduler p)

/-- Where the thread continues after the switch stores. -/
def Switching.after : Switching → Pc
  | .enter l => .enterAdd l
  | .exec w => .schedule (.exec w)
  | .yield _ => .yieldAdd
  | .exit _ => .destroy

/-- What the wake-up of a switch says about the run. -/
def Switching.wakes (t : Pid) : Switching → List (Obs Pid ListId Event)
  | .enter _ => []
  | .exec w => [.wakeWorker t w]
  | .yield p | .exit p => [.wakeScheduler t p]

namespace Device

/-- The next store of a switch. -/
def stepSwitch (s : Device) (t : Pid) (k : Switching) (op : SwitchOp) (ops : List SwitchOp) :
    Device :=
  let s' := s.switchOp (k.contexts t).1 (k.contexts t).2 op
  { s' with
    pc := Function.update s'.pc t (if ops = [] then k.after else .switching k ops)
    hist := if op = .wakeUp then k.wakes t ++ s'.hist else s'.hist }

/-- `ums_completion_list_add(complist, context, COMPLIST_ADD_TAIL)` by the worker itself. -/
def addSelf (s : Device) (t : Pid) (l : ListId) (c : Call Pid) : Device :=
  match umsCompletionListAdd s.heap l t complistAddTail with
  | some h => ({ s with heap := h }.log (.queued t l)).setPc t (.schedule c)
  | none => s.crash

/-- `enqueue_ums_sched_event(scheduler, event, EVENT_ADD_TAIL)`. -/
def postEvent (s : Device) (p : Pid) (e : Event) : Device :=
  match s.scheduler p with
  | some c => s.setScheduler p { c with eventQ := enqueueUmsSchedEvent c.eventQ e eventAddTail }
  | none => s.crash

/-- The removal in `do_dequeue_ums_complist_context`, and what the caller then holds. -/
def takeBatch (s : Device) (t : Pid) (l : ListId) : Device :=
  match doDequeueUmsComplistContext s.heap l with
  | some (.context c, h) =>
    { s with
      heap := h
      batches := Function.update s.batches t ([c] :: s.batches t)
      pc := Function.update s.pc t .dqReturn }
  | _ => s.crash

/-- The list part of `ums_complist_next_context`, and what the caller then holds: the next
context of its batch, or at the end the whole batch as contexts to execute. -/
def takeNext (s : Device) (t c : Pid) : Device :=
  match umsComplistNextContext s.heap c with
  | some (some (.context d), h) =>
    { s with
      heap := h
      batches := Function.update s.batches t (handNext c d (s.batches t))
      }.ret t .nextContext .ok
  | some (none, _) =>
    { s with
      batches := Function.update s.batches t (closeBatch c (s.batches t)).2
      ready := Function.update s.ready t (s.ready t ++ (closeBatch c (s.batches t)).1)
      }.ret t .nextContext .ok
  | _ => s.crash

/-- The next step of thread `t`, which is at the given place; `none` when it cannot move. -/
def advance (s : Device) (t : Pid) : Pc → Option Device
  | .user => none
  | .enterAttach l =>
    match s.worker t with
    | some w => some ((s.setWorker t (some { w with complist := some l })).setPc t
        (.switching (.enter l) prepareSuspendContext))
    | none => some s.crash
  | .switching _ [] => none
  | .switching k (op :: ops) => some (s.stepSwitch t k op ops)
  | .enterAdd l => some (s.addSelf t l .enterWorker)
  | .yieldAdd =>
    match s.worker t with
    | some ⟨_, some l⟩ => some (s.addSelf t l .yield)
    | _ => some s.crash
  -- `schedule()` takes the thread off the processor only if nobody has woken it since
  | .schedule c =>
    if s.task t = .interruptible then some (s.setPc t (.blocked c)) else some (s.ret t c .ok)
  | .blocked c => if s.task t = .running then some (s.ret t c .ok) else none
  | .schedAttach l =>
    match s.scheduler t with
    | some c => some ((s.setScheduler t { c with complist := some l }).setPc t .startup)
    | none => some s.crash
  | .startup => some (((s.postEvent t .schedulerStartup).log
      (.start t .schedulerStartup)).setPc t .startReturn)
  | .startReturn => some (s.ret t .enterScheduler .ok)
  | .dqTest l =>
    if listEmpty s.heap (.head l) then some ((s.setTask t .interruptible).setPc t (.dqWait l))
    else some (s.takeBatch t l)
  -- the wait ends when the condition holds, and otherwise only by a signal
  | .dqWait l =>
    if listEmpty s.heap (.head l) then
      if s.task t = .running then some (s.ret t .dqcontext .erestartsys) else none
    else some ((s.setTask t .running).setPc t (.dqTest l))
  | .dqReturn => some (s.ret t .dqcontext .ok)
  | .nextContext c => some (s.takeNext t c)
  | .yieldParent args =>
    match s.worker t with
    | some ⟨⟨_, .context p, _⟩, _⟩ => some (s.setPc t (.yieldPost p args))
    | _ => some s.crash
  | .yieldPost p args => some (((s.postEvent p (.threadYield t args)).log
      (.post p t (.threadYield t args))).setPc t (.switching (.yield p) prepareSwitchContext))
  | .exitParent =>
    match s.worker t with
    | some ⟨⟨_, .context p, _⟩, _⟩ => some (s.setPc t (.exitPost p))
    | some ⟨⟨_, .null, _⟩, _⟩ => some (s.ret t .exit .esrch)
    | _ => some s.crash
  | .exitPost p => some (((s.postEvent p (.threadTerminated t)).log
      (.post p t (.threadTerminated t))).setPc t (.switching (.exit p) wakeUpContext))
  | .destroy => some ((s.setWorker t none).ret t .exit .ok)
  | .evTest =>
    match s.scheduler t with
    | some ⟨_, _, []⟩ => some ((s.setTask t .interruptible).setPc t .evWait)
    | some ⟨x, l, _ :: q⟩ => some ((s.setScheduler t ⟨x, l, q⟩).setPc t .evReturn)
    | none => some s.crash
  | .evWait =>
    match s.scheduler t with
    | some ⟨_, _, []⟩ =>
      if s.task t = .running then some (s.ret t .dqevent .erestartsys) else none
    | some ⟨_, _, _ :: _⟩ => some ((s.setTask t .running).setPc t .evTest)
    | none => some s.crash
  | .evReturn => some (s.ret t .dqevent .ok)

end Device

/-- The calls of a thread, the next step of a call, and a signal. The new worker's list node
holds whatever was in the allocated memory, and `zero` says that its parent field was null. -/
inductive DeviceAct where
  | enterWorker (t : Pid) (l : ListId) (node : Links Node) (zero : Bool)
  | enterScheduler (t : Pid) (l : ListId)
  | dqcontext (t : Pid) (l : ListId)
  | nextContext (t c : Pid)
  | exec (t w : Pid)
  | yield (t : Pid) (args : UserPtr)
  | exit (t : Pid)
  | dqevent (t : Pid)
  | run (t : Pid)
  | signal (t : Pid)

namespace Device

/-- The beginning of a call, up to the lookups in the tables of workers and schedulers. -/
def call (s : Device) : DeviceAct → Option Device
  | .enterWorker t l node zero =>
    -- the proc directory of the worker exists already, or the worker is created
    if (s.worker t).isSome then some (s.ret t .enterWorker .enomem)
    else some (({ s with heap := Function.update s.heap (.context t) node }.setWorker t
      (some ⟨⟨.running, if zero then .null else .junk, 0⟩, none⟩)).setPc t (.enterAttach l))
  | .enterScheduler t l =>
    if (s.scheduler t).isSome then some (s.ret t .enterScheduler .enomem)
    else some ((s.setScheduler t ⟨⟨.running, .junk, 0⟩, none, []⟩).setPc t (.schedAttach l))
  | .dqcontext t l =>
    if (s.scheduler t).isSome then some (s.setPc t (.dqTest l))
    else some (s.ret t .dqcontext .esrch)
  | .nextContext t c =>
    if (s.worker c).isSome then some (s.setPc t (.nextContext c))
    else some (s.ret t .nextContext .esrch)
  | .exec t w =>
    if (s.worker w).isSome ∧ (s.scheduler t).isSome then
      some (({ s with ready := Function.update s.ready t ((s.ready t).erase w) }.log
        (.exec t w)).setPc t (.switching (.exec w) prepareSwitchContext))
    else some (s.ret t (.exec w) .esrch)
  | .yield t args =>
    if (s.worker t).isSome then some (s.setPc t (.yieldParent args))
    else some (s.ret t .yield .esrch)
  | .exit t =>
    if (s.worker t).isSome then some (s.setPc t .exitParent) else some (s.ret t .exit .esrch)
  | .dqevent t =>
    if (s.scheduler t).isSome then some (s.setPc t .evTest)
    else some (s.ret t .dqevent .esrch)
  | .run _ | .signal _ => none

end Device

/-- The thread that makes a call. -/
def DeviceAct.caller : DeviceAct → Pid
  | .enterWorker t _ _ _ | .enterScheduler t _ | .dqcontext t _ | .nextContext t _ | .exec t _
  | .yield t _ | .exit t | .dqevent t | .run t | .signal t => t

/-- A call is made from user code; a signal makes a sleeping task runnable. -/
def Device.step (s : Device) : DeviceAct → Option Device
  | .run t => s.advance t (s.pc t)
  | .signal t => if s.task t = .interruptible then some (s.setTask t .running) else none
  | a => if s.pc a.caller = .user then s.call a else none

/-- The documented protocol: a scheduler drains each batch through its own handle, and
executes what it has been handed after that, once per handing. -/
def Protocol (s : Device) : DeviceAct → Prop
  | .nextContext t c => IsHandle c (s.batches t)
  | .exec t w => w ∈ s.ready t
  | _ => True

instance (s : Device) (a : DeviceAct) : Decidable (Protocol s a) :=
  match a with
  | .nextContext t c => inferInstanceAs (Decidable (IsHandle c (s.batches t)))
  | .exec t w => inferInstanceAs (Decidable (w ∈ s.ready t))
  | .enterWorker .. | .enterScheduler .. | .dqcontext .. | .yield .. | .exit _ | .dqevent _
  | .run _ | .signal _ => inferInstanceAs (Decidable True)

/-- Asleep in `wait_event_interruptible`. -/
def Pc.waiting : Pc → Bool
  | .dqWait _ | .evWait => true
  | _ => false

/-- No signal reaches a thread that a switch has suspended. -/
def Calm (s : Device) : DeviceAct → Prop
  | .signal t => (s.pc t).waiting = true
  | _ => True

instance (s : Device) (a : DeviceAct) : Decidable (Calm s a) :=
  match a with
  | .signal t => inferInstanceAs (Decidable ((s.pc t).waiting = true))
  | .enterWorker .. | .enterScheduler .. | .dqcontext .. | .nextContext .. | .exec .. | .yield ..
  | .exit _ | .dqevent _ | .run _ => inferInstanceAs (Decidable True)

end LinuxUms
