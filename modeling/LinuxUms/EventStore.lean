import LinuxUms.Device
import LinuxUms.ListPrograms

/-! The event queue of one scheduler at the level of single loads and stores, with the lock, the
wait queue and the memory of the event nodes. `enqueue_ums_sched_event` and
`do_dequeue_ums_sched_event` change the list under `scheduler->lock`, and
`wait_event_interruptible` looks at it without the lock. -/
namespace LinuxUms

open KernelList StoreProgram

/-- The list nodes: `scheduler->event_q`, and the event nodes by their addresses. -/
inductive EventNode where
  | head
  | event (a : ℕ)
  deriving DecidableEq

/-- `enqueue_ums_sched_event` between `spin_lock` and `spin_unlock`. -/
def enqueueUmsSchedEventProg (a flags : ℕ) : ListProg EventNode :=
  if flags &&& eventAddHead ≠ 0 then ListProg.listAdd (.event a) .head (.ret none)
  else if flags &&& eventAddTail ≠ 0 then ListProg.listAddTail (.event a) .head (.ret none)
  else .ret none

/-- `do_dequeue_ums_sched_event` between `spin_lock` and `spin_unlock`: `list_empty`, and for a list
that is not empty `list_first_entry` and `list_del`. -/
def doDequeueUmsSchedEventProg : ListProg EventNode :=
  .load (.head, .next) fun next =>
    if next = .node .head then .ret none
    else .load (.head, .next) fun next => ListProg.atNode next fun x =>
      ListProg.listDel x (.ret (some x))

/-- Where a thread is in `enqueue_ums_sched_event`. -/
inductive Enqueuing where
  -- the node is filled in; before `spin_lock`
  | ready (a : ℕ)
  -- among the loads and stores; at its end before `spin_unlock`
  | body (p : ListProg EventNode)
  -- before `wake_up_all`
  | wake

/-- Where the scheduler thread is. -/
inductive SchedPlace where
  | entering
  -- `enter_ums_scheduler_mode` queues the startup event
  | startup (x : Enqueuing)
  -- the library loop, and `ums_sched_dqevent` before the lookup
  | loop
  | find
  -- `do_dequeue_ums_sched_event`: before `spin_lock`, and under the lock
  | lock
  | body (p : ListProg EventNode)
  -- `wait_event_interruptible`: the test before the wait; in its loop `prepare_to_wait_event`, the
  -- test, with `-ERESTARTSYS` or not, and `schedule()`; `finish_wait`
  | first
  | prepare
  | test (interrupted : Bool)
  | sleep
  | finish
  -- before `copy_to_user`, and before `free_ums_event`
  | copy (a : ℕ)
  | copied (a : ℕ)
  -- `enqueue_ums_sched_event(scheduler, e, EVENT_ADD_HEAD)` after a failed copy
  | back (e : Event) (x : Enqueuing)
  | failed (err : Errno) (undelivered : Option Event)
  | got (e : Event)
  | entry
  | stopped (err : Errno) (undelivered : Option Event)

/-- `lock` is the owner of `scheduler->lock`, where `none` stands for the scheduler thread.
`live` are the allocated nodes, `queued` says that the scheduler thread is in `sched_wait_q`, and
`fault` is set by a bad pointer or a `free` of what is not allocated. -/
structure EventStore where
  heap : Heap EventNode
  event : ℕ → Event
  live : ℕ → Bool
  lock : Option (Option Pid)
  post : Pid → Option Enqueuing
  sched : SchedPlace
  queued : Bool
  task : TaskState
  signalled : Bool
  executed : Bool
  enqueued : List Event
  delivered : List Event
  calls : List EntryCall
  fault : Bool

/-- A worker allocates an event and fills it in, and the next step of its call; the next step of
the scheduler thread inside a call, a signal, a `wake_up_context` by some worker, and the steps of
the library. -/
inductive StoreEventAct where
  | post (t : Pid) (e : Event) (a : ℕ) (node : Links EventNode)
  | run (t : Pid)
  | startup (a : ℕ) (node : Links EventNode)
  | go
  | signal
  | wakeUpContext
  | interrupt (restart : Bool)
  | copyToUser (ok : Bool)
  | ioctl
  | checkErrno
  | callEntry
  | exec
  | returnEntry

/-- In `wait_event_interruptible`. -/
def SchedPlace.waits : SchedPlace → Bool
  | .first | .prepare | .test _ | .sleep => true
  | _ => false

namespace EventStore

def init : EventStore where
  heap _ := ⟨.node .head, .node .head⟩
  event _ := .schedulerStartup
  live _ := false
  lock := none
  post _ := none
  sched := .entering
  queued := false
  task := .running
  signalled := false
  executed := false
  enqueued := []
  delivered := []
  calls := []
  fault := false

def crash (s : EventStore) : EventStore :=
  { s with fault := true }

/-- `alloc_ums_event`, with what the memory held, and the stores to the event. -/
def alloc (s : EventStore) (e : Event) (a : ℕ) (node : Links EventNode) : Option EventStore :=
  if s.live a then none
  else some { s with
    heap := Function.update s.heap (.event a) node
    event := Function.update s.event a e
    live := Function.update s.live a true }

def freeUmsEvent (s : EventStore) (a : ℕ) : EventStore :=
  if s.live a then { s with live := Function.update s.live a false } else s.crash

/-- `wake_up_all(&scheduler->sched_wait_q)`. -/
def wakeUpAll (s : EventStore) : EventStore :=
  if s.queued then { s with task := .running, queued := false } else s

/-- The next step in `enqueue_ums_sched_event`; `enqueued` records what is added at the tail. -/
def enqueue (s : EventStore) (t : Option Pid) (flags : ℕ) :
    Enqueuing → Option (EventStore × Option Enqueuing)
  | .ready a =>
    if s.lock = none then
      some ({ s with
        lock := some t
        enqueued := if flags = eventAddTail then s.enqueued ++ [s.event a] else s.enqueued },
        some (.body (enqueueUmsSchedEventProg a flags)))
    else none
  | .body p =>
    match p.step (cells s.heap) with
    | some (p', m) => some ({ s with heap := ofCells m }, some (.body p'))
    | none =>
      match p with
      | .ret _ => some ({ s with lock := none }, some .wake)
      | _ => some (s.crash, none)
  | .wake => some (s.wakeUpAll, none)

/-- The next step in `do_dequeue_ums_sched_event` under the lock. -/
def dequeue (s : EventStore) (p : ListProg EventNode) : EventStore :=
  match p.step (cells s.heap) with
  | some (p', m) => { s with heap := ofCells m, sched := .body p' }
  | none =>
    match p with
    | .ret none => { s with lock := none, sched := .first }
    | .ret (some (.event a)) => { s with lock := none, sched := .copy a }
    | _ => s.crash

/-- The next step of the scheduler thread inside a call. -/
def go (s : EventStore) : SchedPlace → Option EventStore
  | .startup x =>
    (s.enqueue none eventAddTail x).map fun (s', x') =>
      { s' with sched := x'.elim .loop .startup }
  | .find => some { s with sched := .lock }
  | .lock =>
    if s.lock = none then
      some { s with lock := some none, sched := .body doDequeueUmsSchedEventProg }
    else none
  | .body p => some (s.dequeue p)
  | .first => some { s with sched := if listEmpty s.heap .head then .prepare else .lock }
  | .prepare =>
    if s.signalled then some { s with queued := false, sched := .test true }
    else some { s with task := .interruptible, queued := true, sched := .test false }
  | .test interrupted =>
    if listEmpty s.heap .head then
      if interrupted then none else some { s with sched := .sleep }
    else some { s with sched := .finish }
  | .sleep => if s.task = .running then some { s with sched := .prepare } else none
  | .finish => some { s with task := .running, queued := false, sched := .lock }
  | .copied a =>
    some { s.freeUmsEvent a with sched := .got (s.event a), signalled := false }
  | .back e x =>
    (s.enqueue none eventAddHead x).map fun (s', x') =>
      { s' with sched := x'.elim (.failed .eacces (some e)) (.back e) }
  | _ => none

def step (param : UserPtr) (s : EventStore) : StoreEventAct → Option EventStore
  | .post t e a node =>
    if s.executed = true ∧ s.post t = none then
      (s.alloc e a node).map fun s' =>
        { s' with post := Function.update s'.post t (some (.ready a)) }
    else none
  | .run t =>
    (s.post t).bind fun x => (s.enqueue (some t) eventAddTail x).map fun (s', x') =>
      { s' with post := Function.update s'.post t x' }
  | .startup a node =>
    match s.sched with
    | .entering =>
      (s.alloc .schedulerStartup a node).map fun s' => { s' with sched := .startup (.ready a) }
    | _ => none
  | .go => s.go s.sched
  | .signal =>
    if s.sched.waits then some { s with signalled := true, task := .running } else none
  -- whatever the thread is waiting for
  | .wakeUpContext => some { s with task := .running }
  -- `-ERESTARTSYS` is for the kernel: the call starts over, or the library gets `EINTR`
  | .interrupt restart =>
    match s.sched with
    | .test true =>
      if listEmpty s.heap .head then
        some { s with
          signalled := false
          sched := if restart then .find else .failed .eintr none }
      else none
    | _ => none
  | .copyToUser ok =>
    match s.sched with
    | .copy a =>
      if ok then some { s with delivered := s.delivered ++ [s.event a], sched := .copied a }
      else some { s with sched := .back (s.event a) (.ready a) }
    | _ => none
  | .ioctl =>
    match s.sched with
    | .loop => some { s with sched := .find }
    | _ => none
  | .checkErrno =>
    match s.sched with
    | .failed err u => some { s with sched := if err = .eintr then .loop else .stopped err u }
    | _ => none
  | .callEntry =>
    match s.sched with
    | .got e => some { s with sched := .entry, calls := s.calls ++ [entryCall param e] }
    | _ => none
  | .exec =>
    match s.sched with
    | .entry => some { s with executed := true }
    | _ => none
  | .returnEntry =>
    match s.sched with
    | .entry => some { s with sched := .loop }
    | _ => none

end EventStore

def EventStoreReachable (param : UserPtr) : EventStore → Prop :=
  Transition.Reach (EventStore.step param) (fun _ _ => True) EventStore.init

end LinuxUms
