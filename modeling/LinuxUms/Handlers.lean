import LinuxUms.Device
import LinuxUms.Lifetime
import LinuxUms.Rcu

/-! The handlers of the device operation by operation, with the RCU read sections and the spinlocks
around them. A thread has the list of the operations that its call still has to do. An operation
that looks something up or can fail is replaced by what follows in that case, so the code after a
label such as `out` is what stands behind it in the list. -/
namespace LinuxUms

/-- A `struct ums_complist`, named by its address. -/
structure ComplistObj where
  creator : Pid
  id : ListId := 0
  refcount : ℤ := 0
  contexts : List Pid := []
  -- what has happened to it: the creator has returned, a delete has put it, the contexts that have
  -- a reference, the thread whose put has reached zero
  ready : Bool := false
  deleted : Bool := false
  holders : List ContextRef := []
  releaser : Option Pid := none
  deriving DecidableEq

/-- A `struct ums_scheduler`, of whose event queue the length is kept. -/
structure SchedulerObj where
  complist : Option Addr
  events : ℕ
  deriving DecidableEq

/-- A worker in the table, with its list and its parent once they are assigned. -/
structure WorkerObj where
  complist : Option Addr
  parent : Option Addr
  deriving DecidableEq

inductive SpinLock where
  | idr
  | complist (a : Addr)
  | scheduler (q : Addr)
  deriving DecidableEq

inductive RcuObject where
  | complist (a : Addr)
  | scheduler (q : Addr)
  deriving DecidableEq

/-- Who enters: a worker, or the new scheduler `q`. -/
inductive Entering where
  | worker
  | scheduler (q : Addr)
  deriving DecidableEq

/-- What a list is looked up for. -/
inductive Search where
  | delete
  | dequeue
  | enter (e : Entering)
  deriving DecidableEq

/-- The lookups that follow `rcu_read_lock`. -/
inductive Find where
  | complist (u : Search) (i : ListId)
  -- `ums_complist_next_context`
  | context (c : Pid)
  -- `ums_sched_dqevent`
  | events
  -- `exec_ums_context`, `ums_worker_yield`, `ums_worker_end`
  | exec (w : Pid)
  | yield
  | finish
  deriving DecidableEq

/-- `do_dequeue_ums_complist_context` for scheduler `q`, and `do_dequeue_ums_sched_event`. -/
inductive Taking where
  | contexts (a q : Addr)
  | events (q : Addr)
  deriving DecidableEq

/-- The callers of `ums_completion_list_add`. -/
inductive Adding where
  | enter
  | yield
  | putBack
  deriving DecidableEq

/-- The callers of `enqueue_ums_sched_event`. -/
inductive Posting where
  | startup
  | putBack
  | yield (a : Addr)
  | finish (a : Addr)
  deriving DecidableEq

/-- The callers of `put_ums_complist`. -/
inductive Putting where
  | delete
  | worker
  -- `ums_worker_destroy` in an enter that has found no list
  | entering
  | scheduler (q : Addr)
  deriving DecidableEq

/-- The callers of `IDR_L_REMOVE`: a create that has failed, and `ums_complist_destroy` after the
last put. -/
inductive Removal where
  | undo
  | release (p : Putting)
  deriving DecidableEq

inductive Op where
  | rcuReadLock (f : Find)
  | rcuReadUnlock
  | schedule
  | procRemove (p : Putting)
  | find (f : Find)
  -- `create_ums_complist`; `i` is what `idr_alloc` has returned
  | allocUmsComplist
  | idrPreload (a : Addr)
  | idrLockAlloc (a : Addr)
  | idrAlloc (a : Addr)
  | idrUnlockAlloc (a : Addr) (i : ListId)
  | umsComplistInit (a : Addr) (i : ListId)
  | copyId (a : Addr)
  -- `IDR_L_REMOVE`, and `kfree` or the rest of `ums_complist_destroy`
  | idrLockRemove (m : Removal) (a : Addr)
  | idrRemove (m : Removal) (a : Addr)
  | idrUnlockRemove (m : Removal) (a : Addr)
  | freeUmsComplist (a : Addr)
  | wakeUpAll (p : Putting) (a : Addr)
  | callRcu (p : Putting) (a : Addr)
  -- the references of a list
  | getUmsComplist (e : Entering) (a : Addr)
  | putUmsComplist (p : Putting) (a : Addr)
  -- `enter_ums_mode`
  | copyArgs (r : Role) (i : ListId)
  | allocContext (r : Role) (i : ListId)
  | procRegister (r : Role) (i : ListId)
  | insertContext (r : Role) (i : ListId)
  | enterUnlock (e : Entering) (a : Addr)
  -- the put of the error path, through a list pointer that was never assigned
  | putUnassigned (e : Entering)
  | suspendWorker (a : Addr)
  | allocStartup (a q : Addr)
  -- `ums_completion_list_add`
  | addLock (k : Adding) (a : Addr) (c : Pid)
  | addLink (k : Adding) (a : Addr) (c : Pid)
  | addUnlock (k : Adding) (a : Addr)
  | addWake (k : Adding) (a : Addr)
  -- `enqueue_ums_sched_event`
  | eventLock (k : Posting) (q : Addr)
  | eventAdd (k : Posting) (q : Addr)
  | eventUnlock (k : Posting) (q : Addr)
  | eventWake (k : Posting) (q : Addr)
  -- the two dequeues
  | takeLock (d : Taking)
  | takeTest (d : Taking)
  | takeUnlockWait (d : Taking)
  | takeWait (d : Taking)
  | takeBlocked (d : Taking)
  | takeFirst (d : Taking)
  | takeUnlock (d : Taking) (cs : List Pid)
  -- `ums_complist_dqcontext`
  | copyListId (i : ListId)
  | findScheduler (a : Addr)
  | symlinkFirst (a q : Addr) (c : Pid) (cs : List Pid)
  | symlinkRest (a q : Addr) (c : Pid) (cs : List Pid)
  | copyContext (a : Addr) (c : Pid)
  -- `ums_complist_next_context`
  | copyContextId (c : Pid)
  | copyNext
  -- `ums_sched_dqevent`
  | copyEvent (q : Addr)
  -- `exec_ums_context`
  | removeLink (w : Pid) (q : Addr)
  | switchTo (w : Pid) (q : Addr)
  -- `ums_worker_yield`
  | allocYieldEvent
  | switchBack (a q : Addr)
  -- `ums_worker_end`
  | allocEndEvent
  | wakeUpContext (a q : Addr)
  | removeWorker (p : Putting)
  -- `ums_scheduler_destroy`
  | destroyLock (q : Addr)
  | dropEvents (q : Addr)
  | destroyUnlock (q : Addr)
  | removeScheduler (q : Addr)
  deriving DecidableEq

namespace Op

/-- `schedule`, `wait_event_interruptible`, the allocations with `GFP_KERNEL` (those of procfs
among them) and the copies from and to user space. -/
def maySleep : Op → Bool
  | schedule | takeWait _ => true
  | allocUmsComplist | idrPreload _ | idrAlloc _ | allocContext _ _ | procRegister _ _
  | allocStartup _ _ | symlinkFirst _ _ _ _ | allocYieldEvent | allocEndEvent => true
  -- with no context left the loop ends
  | symlinkRest _ _ _ cs => cs ≠ []
  | copyId _ | copyArgs _ _ | copyListId _ | copyContext _ _ | copyContextId _ | copyNext
  | copyEvent _ => true
  | _ => false

/-- What `rcu_read_lock` and `rcu_read_unlock` do to the nesting of their thread. -/
def rcuStep : Op → ℤ
  | rcuReadLock _ => 1
  | rcuReadUnlock | enterUnlock _ _ => -1
  | _ => 0

/-- The same for the spinlocks that a thread holds. -/
def spinStep : Op → ℤ
  | idrLockAlloc _ | idrLockRemove _ _ | addLock _ _ _ | eventLock _ _ | takeLock _
  | destroyLock _ => 1
  | idrUnlockAlloc _ _ | idrUnlockRemove _ _ | addUnlock _ _ | eventUnlock _ _ | takeUnlockWait _
  | takeUnlock _ _ | destroyUnlock _ => -1
  | _ => 0

end Op

/-- A thread. One that has died in an oops does not go on. -/
structure Task where
  rest : List Op := []
  rcu : ℤ := 0
  spin : ℤ := 0
  dead : Bool := false
  deriving DecidableEq

structure Kernel where
  task : Pid → Task
  held : SpinLock → Option Pid
  idr : ListId → Option Addr
  complist : Addr → Option ComplistObj
  nextComplist : Addr
  workers : Pid → Option WorkerObj
  schedulers : Pid → Option Addr
  scheduler : Addr → Option SchedulerObj
  nextScheduler : Addr
  rcu : Rcu Pid RcuObject

/-- The outcome of an operation: whether it succeeds, whether it sleeps if it may, the id that
`idr_alloc` picks, and what memory holds that was never written: whether it is zero, and the list
that it points to by chance. -/
structure OpLuck where
  ok : Bool := true
  sleeps : Bool := false
  id : ListId := 1
  zero : Bool := true
  stray : Option Addr := none

/-- What an operation leaves, and what it leads to. Without that, the thread dies. -/
abbrev Outcome := Kernel × Option (List Op)

namespace Kernel

def init : Kernel where
  task _ := {}
  held _ := none
  idr _ := none
  complist _ := none
  nextComplist := 0
  workers _ := none
  schedulers _ := none
  scheduler _ := none
  nextScheduler := 0
  rcu := .init

variable (s : Kernel) (t : Pid)

def setComplist (a : Addr) (o : ComplistObj) : Kernel :=
  { s with complist := Function.update s.complist a (some o) }

def setScheduler (q : Addr) (y : SchedulerObj) : Kernel :=
  { s with scheduler := Function.update s.scheduler q (some y) }

/-- An access to the list at `a`, which must be there. -/
def useComplist (a : Addr) (f : ComplistObj → Outcome) : Option Outcome :=
  match s.complist a with
  | none => some (s, none)
  | some o => some (f o)

def useScheduler (q : Addr) (f : SchedulerObj → Outcome) : Option Outcome :=
  match s.scheduler q with
  | none => some (s, none)
  | some y => some (f y)

/-- Whether the memory that holds a lock is there. -/
def lockAlive : SpinLock → Bool
  | .idr => true
  | .complist a => (s.complist a).isSome
  | .scheduler q => (s.scheduler q).isSome

def spinLock (l : SpinLock) (ops : List Op) : Option Outcome :=
  if s.lockAlive l = false then some (s, none)
  else if s.held l = none then
    some ({ s with held := Function.update s.held l (some t) }, some ops)
  -- the thread spins
  else none

def spinUnlock (l : SpinLock) (ops : List Op) : Option Outcome :=
  if s.lockAlive l = false then some (s, none)
  else some ({ s with held := Function.update s.held l none }, some ops)

/-- `list_empty`, if the memory of the queue is there. -/
def isEmpty : Taking → Option Bool
  | .contexts a _ => (s.complist a).map fun o => o.contexts.isEmpty
  | .events q => (s.scheduler q).map fun y => y.events = 0

/-- The nesting of a thread that has left out an `rcu_read_lock` can be negative, and its sections
are none then. -/
def enterSection : Kernel :=
  { s with rcu := if 0 < (s.task t).rcu + 1 then s.rcu.lock t else s.rcu }

def leaveSection : Kernel :=
  { s with rcu := if (s.task t).rcu - 1 ≤ 0 then s.rcu.leave t else s.rcu }

end Kernel

def Taking.lock : Taking → SpinLock
  | .contexts a _ => .complist a
  | .events q => .scheduler q

/-- What stands behind the two dequeues. -/
def Taking.next : Taking → List Pid → List Op
  | .contexts a q, c :: cs => [.symlinkFirst a q c cs]
  | .contexts _ _, [] => []
  | .events q, _ => [.copyEvent q]

def Posting.next (q : Addr) : Posting → List Op
  | .startup | .putBack => []
  | .yield a => [.switchBack a q]
  | .finish a => [.wakeUpContext a q]

def Adding.next : Adding → List Op
  | .enter => [.schedule]
  | .yield | .putBack => []

def Entering.next (a : Addr) : Entering → List Op
  | .worker => [.suspendWorker a]
  | .scheduler q => [.allocStartup a q]

/-- The error path of an enter that has found no list. -/
def Entering.undo : Entering → List Op
  | .worker => [.rcuReadUnlock, .putUnassigned .worker]
  | .scheduler q => [.rcuReadUnlock, .destroyLock q, .putUnassigned (.scheduler q)]

def Entering.putting : Entering → Putting
  | .worker => .entering
  | .scheduler q => .scheduler q

def Entering.ref (t : Pid) : Entering → ContextRef
  | .worker => .worker t
  | .scheduler _ => .scheduler t

/-- What a destruction does after its put. -/
def Putting.next : Putting → List Op
  | .delete => []
  | .worker => [.procRemove .worker, .removeWorker .worker]
  | .entering => [.procRemove .entering, .removeWorker .entering]
  | .scheduler q => [.procRemove (.scheduler q), .removeScheduler q]

/-- The list after a put: a delete marks it, and a context gives its reference back. -/
def Putting.apply (t : Pid) (o : ComplistObj) : Putting → ComplistObj
  | .delete => { o with refcount := o.refcount - 1, deleted := true }
  | .worker | .entering =>
    { o with refcount := o.refcount - 1, holders := o.holders.erase (.worker t) }
  | .scheduler _ =>
    { o with refcount := o.refcount - 1, holders := o.holders.erase (.scheduler t) }

def Removal.next (a : Addr) : Removal → List Op
  | .undo => [.freeUmsComplist a]
  | .release p => [.callRcu p a]

namespace Kernel

/-- The lookups, inside a read section. -/
def lookup (s : Kernel) (t : Pid) : Find → List Op
  | .complist .delete i => (s.idr i).elim [] fun a => [.putUmsComplist .delete a]
  | .complist .dequeue i => (s.idr i).elim [] fun a => [.findScheduler a]
  | .complist (.enter e) i => (s.idr i).elim e.undo fun a => [.getUmsComplist e a]
  | .context c => (s.workers c).elim [] fun _ => [.copyNext]
  | .events => (s.schedulers t).elim [] fun q => [.takeLock (.events q)]
  | .exec w =>
    (s.workers w).elim [.rcuReadUnlock] fun _ =>
      (s.schedulers t).elim [.rcuReadUnlock] fun q =>
        [.removeLink w q, .rcuReadUnlock, .schedule]
  | .yield => (s.workers t).elim [.rcuReadUnlock] fun _ => [.allocYieldEvent]
  | .finish => (s.workers t).elim [] fun _ => [.allocEndEvent]

/-- `rhashtable_insert_fast` of a new worker or scheduler, which is freed if the pid is there. -/
def insertContext (s : Kernel) (t : Pid) (i : ListId) : Role → Outcome
  | .worker =>
    if (s.workers t).isSome then (s, some [])
    else
      ({ s with workers := Function.update s.workers t (some ⟨none, none⟩) },
        some [.rcuReadLock (.complist (.enter .worker) i)])
  | .scheduler =>
    if (s.schedulers t).isSome then (s, some [])
    else
      ({ s.setScheduler s.nextScheduler ⟨none, 0⟩ with
          schedulers := Function.update s.schedulers t (some s.nextScheduler)
          nextScheduler := s.nextScheduler + 1 },
        some [.rcuReadLock (.complist (.enter (.scheduler s.nextScheduler)) i)])

def exec (s : Kernel) (t : Pid) (luck : OpLuck) : Op → Option Outcome
  | .rcuReadLock f => some (s.enterSection t, some [.find f])
  | .rcuReadUnlock => some (s.leaveSection t, some [])
  | .schedule | .procRemove _ | .copyNext => some (s, some [])
  | .find f => some (s, some (s.lookup t f))
  | .allocUmsComplist =>
    if luck.ok = false then some (s, some [])
    else
      some ({ s.setComplist s.nextComplist { creator := t } with
          nextComplist := s.nextComplist + 1 }, some [.idrPreload s.nextComplist])
  | .idrPreload a => some (s, some [.idrLockAlloc a])
  | .idrLockAlloc a => s.spinLock t .idr [.idrAlloc a]
  | .idrAlloc a =>
    -- an error is taken for an id
    if luck.ok = false then some (s, some [.idrUnlockAlloc a (-12)])
    else if 1 ≤ luck.id ∧ s.idr luck.id = none then
      some ({ s with idr := Function.update s.idr luck.id (some a) },
        some [.idrUnlockAlloc a luck.id])
    else none
  | .idrUnlockAlloc a i => s.spinUnlock .idr [.umsComplistInit a i]
  | .umsComplistInit a i =>
    s.useComplist a fun o => (s.setComplist a { o with id := i, refcount := 1, contexts := [] },
      some [.copyId a])
  | .copyId a =>
    s.useComplist a fun o =>
      if luck.ok then (s.setComplist a { o with ready := true }, some [])
      else (s, some [.idrLockRemove .undo a])
  | .idrLockRemove m a => s.spinLock t .idr [.idrRemove m a]
  | .idrRemove m a =>
    s.useComplist a fun o => ({ s with idr := Function.update s.idr o.id none },
      some [.idrUnlockRemove m a])
  | .idrUnlockRemove m a => s.spinUnlock .idr (m.next a)
  | .freeUmsComplist a => some ({ s with complist := Function.update s.complist a none }, some [])
  | .wakeUpAll p a => s.useComplist a fun _ => (s, some [.idrLockRemove (.release p) a])
  | .callRcu _ a => some ({ s with rcu := s.rcu.callRcu (.complist a) }, some [])
  | .getUmsComplist e a =>
    s.useComplist a fun o => (s.setComplist a
      { o with refcount := o.refcount + 1, holders := e.ref t :: o.holders },
      some [.enterUnlock e a])
  | .putUmsComplist p a =>
    s.useComplist a fun o =>
      if o.refcount - 1 = 0 then
        (s.setComplist a { p.apply t o with releaser := some t }, some (.wakeUpAll p a :: p.next))
      else (s.setComplist a (p.apply t o), some p.next)
  | .copyArgs r i => some (s, some (if luck.ok then [.allocContext r i] else []))
  | .allocContext r i => some (s, some (if luck.ok then [.procRegister r i] else []))
  | .procRegister r i => some (s, some (if luck.ok then [.insertContext r i] else []))
  | .insertContext r i => some (if luck.ok then s.insertContext t i r else (s, some []))
  | .enterUnlock e a => some (s.leaveSection t, some (e.next a))
  | .putUnassigned e => some (s, luck.stray.map fun a => [.putUmsComplist e.putting a])
  | .suspendWorker a =>
    match s.workers t with
    | none => some (s, none)
    | some w =>
      some ({ s with workers := Function.update s.workers t (some { w with complist := some a }) },
        some [.addLock .enter a t])
  | .allocStartup a q =>
    s.useScheduler q fun y => (s.setScheduler q { y with complist := some a },
      some (if luck.ok then [.eventLock .startup q]
        else [.rcuReadUnlock, .destroyLock q, .putUmsComplist (.scheduler q) a]))
  | .addLock k a c => s.spinLock t (.complist a) [.addLink k a c]
  | .addLink k a c =>
    s.useComplist a fun o => (s.setComplist a { o with contexts :=
      if k = .putBack then c :: o.contexts else o.contexts ++ [c] }, some [.addUnlock k a])
  | .addUnlock k a => s.spinUnlock (.complist a) [.addWake k a]
  | .addWake k a => s.useComplist a fun _ => (s, some k.next)
  | .eventLock k q => s.spinLock t (.scheduler q) [.eventAdd k q]
  | .eventAdd k q =>
    s.useScheduler q fun y => (s.setScheduler q { y with events := y.events + 1 },
      some [.eventUnlock k q])
  | .eventUnlock k q => s.spinUnlock (.scheduler q) [.eventWake k q]
  | .eventWake k q => s.useScheduler q fun _ => (s, some (k.next q))
  | .takeLock d => s.spinLock t d.lock [.takeTest d]
  | .takeTest d =>
    match s.isEmpty d with
    | none => some (s, none)
    | some empty => some (s, some (if empty then [.takeUnlockWait d] else [.takeFirst d]))
  | .takeUnlockWait d => s.spinUnlock d.lock [.takeWait d]
  | .takeWait d =>
    match s.isEmpty d with
    | none => some (s, none)
    | some empty => some (s, some (if empty then [.takeBlocked d] else [.takeLock d]))
  | .takeBlocked d =>
    match s.isEmpty d with
    | none => some (s, none)
    -- a signal ends the wait
    | some empty =>
      if luck.ok = false then some (s, some [])
      else if empty then none
      else some (s, some [.takeLock d])
  | .takeFirst (.contexts a q) =>
    s.useComplist a fun o =>
      if o.contexts = [] then (s, none)
      else (s.setComplist a { o with contexts := [] },
        some [.takeUnlock (.contexts a q) o.contexts])
  | .takeFirst (.events q) =>
    s.useScheduler q fun y => (s.setScheduler q { y with events := y.events - 1 },
      some [.takeUnlock (.events q) []])
  | .takeUnlock d cs => s.spinUnlock d.lock (d.next cs)
  | .copyListId i =>
    some (s, some (if luck.ok then [.rcuReadLock (.complist .dequeue i), .rcuReadUnlock] else []))
  | .findScheduler a =>
    some (s, some ((s.schedulers t).elim [] fun q => [.takeLock (.contexts a q)]))
  | .symlinkFirst a q c cs =>
    s.useScheduler q fun _ => (s, some (if luck.ok then [.symlinkRest a q c cs]
      else [.addLock .putBack a c]))
  | .symlinkRest a _ c [] => some (s, some [.copyContext a c])
  | .symlinkRest a q c (_ :: cs) => s.useScheduler q fun _ => (s, some [.symlinkRest a q c cs])
  | .copyContext a c => some (s, some (if luck.ok then [] else [.addLock .putBack a c]))
  | .copyContextId c =>
    some (s, some (if luck.ok then [.rcuReadLock (.context c), .rcuReadUnlock] else []))
  | .copyEvent q => some (s, some (if luck.ok then [] else [.eventLock .putBack q]))
  | .removeLink w q => s.useScheduler q fun _ => (s, some [.switchTo w q])
  | .switchTo w q =>
    s.useScheduler q fun _ =>
      ({ s with
        workers := Function.update s.workers w
          ((s.workers w).map fun x => { x with parent := some q }) }, some [])
  | .allocYieldEvent =>
    if luck.ok = false then some (s, some [.rcuReadUnlock])
    else
      match s.workers t with
      | some ⟨some a, some q⟩ =>
        some (s, some [.eventLock (.yield a) q, .rcuReadUnlock, .schedule])
      | _ => some (s, none)
  | .switchBack a q => s.useScheduler q fun _ => (s, some [.addLock .yield a t])
  | .allocEndEvent =>
    if luck.ok = false then some (s, some [])
    else
      match s.workers t with
      | some ⟨some a, some q⟩ => some (s, some [.eventLock (.finish a) q])
      -- a parent that was never assigned is null by chance
      | some ⟨_, none⟩ => some (s, if luck.zero then some [] else none)
      | _ => some (s, none)
  | .wakeUpContext a q => s.useScheduler q fun _ => (s, some [.putUmsComplist .worker a])
  | .removeWorker _ => some ({ s with workers := Function.update s.workers t none }, some [])
  | .destroyLock q => s.spinLock t (.scheduler q) [.dropEvents q]
  | .dropEvents q =>
    s.useScheduler q fun y => (s.setScheduler q { y with events := 0 }, some [.destroyUnlock q])
  | .destroyUnlock q => s.spinUnlock (.scheduler q) []
  | .removeScheduler q =>
    some ({ s with
      schedulers := Function.update s.schedulers t none
      rcu := s.rcu.callRcu (.scheduler q) }, some [])

/-- Whether a thread sleeps in an operation. `wait_event_interruptible` looks at its condition
first. -/
def sleeps (s : Kernel) (luck : OpLuck) : Op → Bool
  | .takeWait d => s.isEmpty d = some true
  | op => op.maySleep && luck.sleeps

end Kernel

def Task.after (x : Task) (op : Op) (tail : List Op) : Option (List Op) → Task
  | none => { x with rest := [], dead := true }
  | some ops =>
    { x with rest := ops ++ tail, rcu := x.rcu + op.rcuStep, spin := x.spin + op.spinStep }

/-- The commands of `ums_dev_ioctl`. -/
inductive Request where
  | create
  | enter (r : Role) (i : ListId)
  | dqcontext (i : ListId)
  | next (c : Pid)
  | delete (i : ListId)
  | exec (w : Pid)
  | yield
  | finish
  | dqevent

def Request.code : Request → List Op
  | .create => [.allocUmsComplist]
  | .enter r i => [.copyArgs r i]
  | .dqcontext i => [.copyListId i]
  | .next c => [.copyContextId c]
  | .delete i => [.rcuReadLock (.complist .delete i), .rcuReadUnlock]
  | .exec w => [.rcuReadLock (.exec w)]
  | .yield => [.rcuReadLock .yield]
  | .finish => [.rcuReadLock .finish, .rcuReadUnlock]
  | .dqevent => [.rcuReadLock .events, .rcuReadUnlock]

inductive KernelAct where
  | call (t : Pid) (r : Request)
  | run (t : Pid) (luck : OpLuck)
  -- the callback that `call_rcu` has registered
  | free (o : RcuObject)

namespace Kernel

/-- A sleep ends the read section, which the thread takes for open. -/
def sleep (s : Kernel) (t : Pid) : Kernel := { s with rcu := s.rcu.leave t }

def step (s : Kernel) : KernelAct → Option Kernel
  | .call t r =>
    if (s.task t).rest = [] ∧ (s.task t).dead = false then
      some { s with task := Function.update s.task t { s.task t with rest := r.code } }
    else none
  | .run t luck =>
    match (s.task t).rest with
    | [] => none
    | op :: tail =>
      ((if s.sleeps luck op then s.sleep t else s).exec t luck op).map fun (s', ops) =>
        { s' with task := Function.update s.task t ((s.task t).after op tail ops) }
  | .free o =>
    if s.rcu.Elapsed o then
      match o with
      | .complist a => some { s with complist := Function.update s.complist a none }
      | .scheduler q => some { s with scheduler := Function.update s.scheduler q none }
    else none

end Kernel

end LinuxUms
