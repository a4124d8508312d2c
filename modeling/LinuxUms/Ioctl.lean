import LinuxUms.Device

/-! The device between calls. Here a step is a whole ioctl, up to its return or to the point
where it suspends its caller, signals may end a suspension, and users are free to name any worker
and any list, to be worker and scheduler at once, and to pass addresses that cannot be written. -/
namespace LinuxUms

open KernelList

/-- A live completion list. `holders` are the contexts attached to it. -/
structure ListRec where
  refcount : ℤ
  deleted : Bool
  holders : List ContextRef
  deriving DecidableEq

/-- `asleep t` is the call that has suspended thread `t`. `rings` records what the list
operations have put behind each sentinel: the heads of the lists, and the contexts that are
linked to themselves or have the rest of a dequeued batch behind them. -/
structure IoState where
  heap : Heap Node
  list : ListId → Option ListRec
  worker : Pid → Option Worker
  scheduler : Pid → Option Scheduler
  asleep : Pid → Option (Call Pid)
  fault : Bool
  rings : Node → Option (List Node)

namespace IoState

def init : IoState where
  heap _ := ⟨.null, .null⟩
  list _ := none
  worker _ := none
  scheduler _ := none
  asleep _ := none
  fault := false
  rings _ := none

def crash (s : IoState) : IoState := { s with fault := true }

/-- `create_ums_complist`, for which the id table picks the free id `l`. -/
def createUmsComplist (s : IoState) (l : ListId) : IoState :=
  { s with
    heap := initListHead s.heap (.head l)
    list := Function.update s.list l (some ⟨1, false, []⟩)
    rings := Function.update s.rings (.head l) (some []) }

/-- `get_ums_complist` on behalf of a new context. -/
def getUmsComplist (s : IoState) (l : ListId) (o : ListRec) (c : ContextRef) : IoState :=
  { s with
    list := Function.update s.list l
      (some { o with refcount := o.refcount + 1, holders := c :: o.holders }) }

/-- `put_ums_complist`, with `o` as the record is apart from the count. -/
def putUmsComplist (s : IoState) (l : ListId) (o : ListRec) : IoState :=
  if o.refcount - 1 = 0 then
    { s with
      list := Function.update s.list l none
      rings := Function.update s.rings (.head l) none }
  else { s with list := Function.update s.list l (some { o with refcount := o.refcount - 1 }) }

def umsComplistDelete (s : IoState) (l : ListId) : IoState :=
  match s.list l with
  | none => s
  | some o => s.putUmsComplist l { o with deleted := true }

/-- `ums_completion_list_add(complist, context, COMPLIST_ADD_TAIL)`. -/
def addTail (s : IoState) (l : ListId) (c : Pid) : IoState :=
  match umsCompletionListAdd s.heap l c complistAddTail with
  | none => s.crash
  | some h =>
    { s with
      heap := h
      rings := Function.update (Function.update s.rings (.context c) none) (.head l)
        (some ((s.rings (.head l)).getD [] ++ [.context c])) }

/-- The new worker's node holds what was in the allocated memory; `zero` says that its parent
member was null. -/
def enterUmsWorkerMode (s : IoState) (t : Pid) (l : ListId) (node : Links Node) (zero : Bool) :
    IoState :=
  if (s.worker t).isSome then s
  else
    match s.list l with
    -- the error path puts a list pointer that was never assigned
    | none => s.crash
    | some o =>
      { s.getUmsComplist l o (.worker t) with
        heap := Function.update s.heap (.context t) node
        worker := Function.update s.worker t
          (some ⟨⟨.idle, if zero then .null else .junk, 0⟩, some l⟩)
        asleep := Function.update s.asleep t (some .enterWorker) }.addTail l t

def enterUmsSchedulerMode (s : IoState) (t : Pid) (l : ListId) : IoState :=
  if (s.scheduler t).isSome then s
  else
    match s.list l with
    | none => s.crash
    | some o =>
      { s.getUmsComplist l o (.scheduler t) with
        scheduler := Function.update s.scheduler t (some ⟨⟨.running, .junk, 0⟩, some l,
          enqueueUmsSchedEvent [] .schedulerStartup eventAddTail⟩) }

/-- `ums_complist_dqcontext` on a list that is not empty; `copied` says that the pid could be
written to user space, and otherwise the first context is put back. -/
def takeBatch (s : IoState) (l : ListId) (copied : Bool) : IoState :=
  match doDequeueUmsComplistContext s.heap l with
  | some (.context c, h) =>
    let rings := Function.update (Function.update s.rings (.head l) (some [])) (.context c)
      (some ((s.rings (.head l)).getD []).tail)
    if copied then { s with heap := h, rings := rings }
    else
      match umsCompletionListAdd h l c complistAddHead with
      | none => s.crash
      | some h =>
        { s with
          heap := h
          rings := Function.update (Function.update rings (.context c) none) (.head l)
            (some [.context c]) }
  | _ => s.crash

def umsComplistDqcontext (s : IoState) (t : Pid) (l : ListId) (copied : Bool) : Option IoState :=
  if (s.list l).isNone ∨ (s.scheduler t).isNone then some s
  -- the caller waits
  else if listEmpty s.heap (.head l) then none
  else some (s.takeBatch l copied)

def umsComplistNextContext (s : IoState) (c : Pid) : IoState :=
  if (s.worker c).isNone then s
  else
    match LinuxUms.umsComplistNextContext s.heap c with
    | some (none, _) => s
    | some (some (.context d), h) =>
      { s with
        heap := h
        rings := Function.update (Function.update s.rings (.context c) (some [])) (.context d)
          (some ((s.rings (.context c)).getD []).tail) }
    | _ => s.crash

/-- `exec_ums_context`. Neither the state of the worker nor its node is looked at. -/
def execUmsContext (s : IoState) (t w : Pid) : IoState :=
  match s.worker w, s.scheduler t with
  | some x, some y =>
    { s with
      worker := Function.update s.worker w
        (some { x with context := { x.context with parent := .context t, state := .running } })
      scheduler := Function.update s.scheduler t
        (some { y with context :=
          { y.context with switches := y.context.switches + 1, state := .idle } })
      -- the caller goes to sleep before the worker's task is woken
      asleep := Function.update (Function.update s.asleep t (some (.exec w))) w none }
  | _, _ => s

/-- An event for scheduler `p`, which becomes running. -/
def notify (s : IoState) (p : Pid) (y : Scheduler) (e : Event) (parent : Parent) : IoState :=
  { s with
    scheduler := Function.update s.scheduler p
      (some { y with
        eventQ := enqueueUmsSchedEvent y.eventQ e eventAddTail
        context := { y.context with state := .running, parent := parent } })
    asleep := Function.update s.asleep p none }

def umsWorkerYield (s : IoState) (t : Pid) (args : UserPtr) : IoState :=
  match s.worker t with
  | none => s
  | some ⟨⟨_, .context p, n⟩, some l⟩ =>
    match s.scheduler p, s.list l with
    | some y, some _ =>
      ({ s with
        worker := Function.update s.worker t (some ⟨⟨.idle, .context p, n + 1⟩, some l⟩)
        asleep := Function.update s.asleep t (some .yield) }.notify p y (.threadYield t args)
          (.context t)).addTail l t
    | _, _ => s.crash
  | some _ => s.crash

def umsWorkerEnd (s : IoState) (t : Pid) : IoState :=
  match s.worker t with
  | none => s
  | some ⟨⟨_, .null, _⟩, _⟩ => s
  | some ⟨⟨_, .context p, _⟩, some l⟩ =>
    match s.scheduler p, s.list l with
    | some y, some o =>
      { s.notify p y (.threadTerminated t) y.context.parent with
        worker := Function.update s.worker t none }.putUmsComplist l
          { o with holders := o.holders.erase (.worker t) }
    | _, _ => s.crash
  | some _ => s.crash

/-- `ums_sched_dqevent`; an event that cannot be copied goes back to the front. -/
def umsSchedDqevent (s : IoState) (t : Pid) (copied : Bool) : Option IoState :=
  match s.scheduler t with
  | none => some s
  | some ⟨_, _, []⟩ => none
  | some ⟨x, l, e :: q⟩ =>
    some { s with
      scheduler := Function.update s.scheduler t
        (some ⟨x, l, if copied then q else enqueueUmsSchedEvent q e eventAddHead⟩) }

end IoState

inductive IoAct where
  | create (t : Pid) (l : ListId)
  | delete (t : Pid) (l : ListId)
  | enterWorker (t : Pid) (l : ListId) (node : Links Node) (zero : Bool)
  | enterScheduler (t : Pid) (l : ListId)
  | dqcontext (t : Pid) (l : ListId) (copied : Bool)
  | nextContext (t c : Pid)
  | exec (t w : Pid)
  | yield (t : Pid) (args : UserPtr)
  | exit (t : Pid)
  | dqevent (t : Pid) (copied : Bool)

def IoAct.caller : IoAct → Pid
  | .create t _ | .delete t _ | .enterWorker t _ _ _ | .enterScheduler t _ | .dqcontext t _ _
  | .nextContext t _ | .exec t _ | .yield t _ | .exit t | .dqevent t _ => t

/-- A call is made by a thread that is not suspended. -/
def IoState.step (s : IoState) (act : IoAct) : Option IoState :=
  if s.asleep act.caller ≠ none then none
  else
    match act with
    | .create _ l => if 1 ≤ l ∧ s.list l = none then some (s.createUmsComplist l) else none
    | .delete _ l => some (s.umsComplistDelete l)
    | .enterWorker t l node zero => some (s.enterUmsWorkerMode t l node zero)
    | .enterScheduler t l => some (s.enterUmsSchedulerMode t l)
    | .dqcontext t l copied => s.umsComplistDqcontext t l copied
    | .nextContext _ c => some (s.umsComplistNextContext c)
    | .exec t w => some (s.execUmsContext t w)
    | .yield t args => some (s.umsWorkerYield t args)
    | .exit t => some (s.umsWorkerEnd t)
    | .dqevent t copied => s.umsSchedDqevent t copied

/-- What happens to the device: a call, or a signal to a thread. -/
inductive IoMove where
  | call (act : IoAct)
  | signal (t : Pid)

namespace IoState

/-- The `schedule` of a suspended thread returns, and so does its call. -/
def signal (s : IoState) (t : Pid) : IoState :=
  { s with asleep := Function.update s.asleep t none }

def move (s : IoState) : IoMove → Option IoState
  | .call act => s.step act
  | .signal t => some (s.signal t)

theorem signal_of_awake {s : IoState} {t : Pid} (h : s.asleep t = none) : s.signal t = s := by
  rw [signal, ← h, Function.update_eq_self]

end IoState

end LinuxUms
