import LinuxUms.Complist
import LinuxUms.Transition

/-! The life of a completion list: `ums_complist_init` step by step, the lookups that can fall
between its steps, the references that enters take and contexts give back, and the release. A
`struct ums_complist` is named by its address, since ids are used again; `Node.head a` is the list
head inside the object at `a`. The nodes of contexts are named by the order of their insertion. -/
namespace LinuxUms

open KernelList

abbrev Addr := ℤ

/-- The members of `struct ums_complist` that its life depends on, as `kzalloc` leaves them
at first. The list head is in the heap. -/
structure UmsComplist where
  id : ListId := 0
  refcount : ℤ := 0
  deriving DecidableEq

/-- What `ums_complist_init` does after `IDR_L_ALLOC`, one store or call each. -/
inductive InitOp where
  | setId
  | setData
  | spinLockInit
  | initListHead
  | initWaitqueueHead
  | krefInit
  deriving DecidableEq

def umsComplistInit : List InitOp :=
  [.setId, .setData, .spinLockInit, .initListHead, .initWaitqueueHead, .krefInit]

/-- Where a thread is. -/
inductive RegPc where
  | user
  -- inside `create_ums_complist`, published under `i`, with `ops` left to do
  | creating (a : Addr) (i : ListId) (ops : List InitOp)
  -- between `IDR_L_FIND` and `get_ums_complist`
  | attaching (r : Role) (a : Addr)
  -- out of the read section with a reference, about to store the pointer in the new context
  | storing (r : Role) (a : Addr)
  -- between that and `ums_completion_list_add`
  | inserting (a : Addr)
  -- a new scheduler, about to allocate its startup event
  | startup (a : Addr)
  | suspended
  -- between `IDR_L_FIND` and `put_ums_complist`
  | deleting (a : Addr)
  -- between `IDR_L_FIND` and the end of the wait loop
  | dequeuing (a : Addr)
  -- the batch of context `c` is taken and not yet reported to user space
  | reporting (a : Addr) (c : Pid)
  -- in `ums_worker_destroy` or `ums_scheduler_destroy`, about to put the list of the context
  | ending (r : Role) (a : Addr)
  -- in `ums_complist_destroy`, about to remove the id, and about to call `call_rcu`. The put was
  -- in the destroy function of a context of role `k`, or in `ums_complist_delete`
  | removing (k : Option Role) (a : Addr)
  | retiring (k : Option Role) (a : Addr)
  -- behind the put of the destroy function, and the context is still in its table
  | dropping (r : Role) (a : Addr)
  | oops
  deriving DecidableEq

/-- The list a thread has looked up and is not done with. -/
def RegPc.uses : RegPc → Option Addr
  | .attaching _ a | .storing _ a | .inserting a | .deleting a | .dequeuing a
  | .reporting a _ => some a
  | _ => none

/-- `ums_data.comp_lists` with the objects behind it. `table` is `ums_data.workers` and
`ums_data.schedulers`, and `complist` the member of each context, which is not assigned at first.
`readers a` are the threads inside an RCU read section in which they got hold of `a`. -/
structure Registry where
  heap : Heap Node
  obj : Addr → Option UmsComplist
  idr : ListId → Option Addr
  nextAddr : Addr
  nextContext : Pid
  table : Role → List Pid
  complist : Role × Pid → Option Addr
  pc : Pid → RegPc
  readers : Addr → List Pid
  -- handed to `call_rcu`
  retired : Addr → Bool
  fault : Bool
  -- what has happened so far: the creator has returned, the successful deletes, the runs of
  -- `ums_complist_release`, the threads between their lookup and their last use
  ready : Addr → Bool
  deletes : Addr → ℕ
  releases : Addr → ℕ
  inUse : Addr → List Pid

namespace Registry

def init : Registry where
  heap := fun _ => ⟨.null, .null⟩
  obj := fun _ => none
  idr := fun _ => none
  nextAddr := 0
  nextContext := 0
  table := fun _ => []
  complist := fun _ => none
  pc := fun _ => .user
  readers := fun _ => []
  retired := fun _ => false
  fault := false
  ready := fun _ => false
  deletes := fun _ => 0
  releases := fun _ => 0
  inUse := fun _ => []

variable (s : Registry) (t : Pid) (a : Addr)

def setPc (p : RegPc) : Registry := { s with pc := Function.update s.pc t p }

/-- The thread does not come back from an oops. -/
def crash : Registry :=
  { s.setPc t .oops with
    fault := true
    inUse := fun b => (s.inUse b).filter (· ≠ t) }

/-- `rcu_read_lock` and a lookup that finds `a`. -/
def hold (p : RegPc) : Registry :=
  { s.setPc t p with
    readers := Function.update s.readers a (t :: s.readers a)
    inUse := Function.update s.inUse a (t :: s.inUse a) }

/-- The thread does not touch `a` again as what it has looked up. -/
def done : Registry :=
  { s with inUse := Function.update s.inUse a ((s.inUse a).filter (· ≠ t)) }

/-- `rcu_read_unlock`. -/
def unlock : Registry :=
  { s with readers := Function.update s.readers a ((s.readers a).filter (· ≠ t)) }

def leave : Registry := ((s.done t a).unlock t a).setPc t .user

/-- `ums_worker_create` and `ums_scheduler_create`. -/
def createContext (r : Role) : Registry :=
  { s with
    table := Function.update s.table r (t :: s.table r)
    complist := Function.update s.complist (r, t) none }

/-- `kzalloc` and `IDR_L_ALLOC`. -/
def publish (i : ListId) : Registry :=
  { s.setPc t (.creating s.nextAddr i umsComplistInit) with
    heap := Function.update s.heap (.head s.nextAddr) ⟨.null, .null⟩
    obj := Function.update s.obj s.nextAddr (some {})
    idr := Function.update s.idr i (some s.nextAddr)
    nextAddr := s.nextAddr + 1 }

def initStep (i : ListId) (o : UmsComplist) : InitOp → Registry
  | .setId => { s with obj := Function.update s.obj a (some { o with id := i }) }
  | .initListHead => { s with heap := initListHead s.heap (.head a) }
  | .krefInit => { s with obj := Function.update s.obj a (some { o with refcount := 1 }) }
  | .setData | .spinLockInit | .initWaitqueueHead => s

/-- `get_ums_complist`, with the count as a plain integer. -/
def getUmsComplist (o : UmsComplist) : Registry :=
  { s with obj := Function.update s.obj a (some { o with refcount := o.refcount + 1 }) }

/-- `worker->complist = complist`, or the same for a scheduler. -/
def storeComplist (r : Role) : Registry :=
  { s with complist := Function.update s.complist (r, t) (some a) }

/-- `put_ums_complist` returns to `ums_complist_delete`, or to a destroy function. -/
def putReturns : Option Role → Registry
  | none => s.leave t a
  | some r => s.setPc t (.dropping r a)

/-- `put_ums_complist`. The thread whose decrement reaches zero goes on in
`ums_complist_release`. -/
def putUmsComplist (o : UmsComplist) (k : Option Role) : Registry :=
  let s := { s with obj := Function.update s.obj a (some { o with refcount := o.refcount - 1 }) }
  if o.refcount - 1 = 0 then
    { (s.done t a).setPc t (.removing k a) with
      releases := Function.update s.releases a (s.releases a + 1) }
  else s.putReturns t a k

/-- `IDR_L_REMOVE(&data->comp_lists, complist->id)`. -/
def umsComplistDeinit (o : UmsComplist) : Registry :=
  { s with idr := Function.update s.idr o.id none }

/-- The next step of a thread inside the module. An access to a freed object is a fault. -/
def advance : Option Registry :=
  match s.pc t with
  | .user | .suspended | .oops => none
  | .creating a i (op :: ops) =>
    match s.obj a with
    | none => some (s.crash t)
    | some o => some ((s.initStep a i o op).setPc t (.creating a i ops))
  | .creating a _ [] => some { s.setPc t .user with ready := Function.update s.ready a true }
  | .attaching r a =>
    match s.obj a with
    | none => some (s.crash t)
    | some o => some (((s.getUmsComplist a o).unlock t a).setPc t (.storing r a))
  | .storing r a =>
    match r with
    | .worker => some ((s.storeComplist t a r).setPc t (.inserting a))
    | .scheduler => some (((s.storeComplist t a r).done t a).setPc t (.startup a))
  | .inserting a =>
    match s.obj a, umsCompletionListAdd s.heap a s.nextContext complistAddTail with
    | some _, some h =>
      some { (s.done t a).setPc t .suspended with
        heap := h, nextContext := s.nextContext + 1 }
    | _, _ => some (s.crash t)
  | .startup _ => some (s.setPc t .user)
  | .deleting a =>
    match s.obj a with
    | none => some (s.crash t)
    | some o =>
      some ({ s with
        deletes := Function.update s.deletes a (s.deletes a + 1) }.putUmsComplist t a o none)
  | .dequeuing a =>
    match s.obj a with
    | none => some (s.crash t)
    | some _ =>
      -- the wait loop goes on while the list is empty
      if listEmpty s.heap (.head a) then none
      else
        match doDequeueUmsComplistContext s.heap a with
        | some (.context c, h) => some { s.setPc t (.reporting a c) with heap := h }
        | _ => some (s.crash t)
  | .reporting a _ => some (s.leave t a)
  | .ending r a =>
    match s.obj a with
    | none => some (s.crash t)
    | some o => some (s.putUmsComplist t a o (some r))
  | .removing k a =>
    match s.obj a with
    | none => some (s.crash t)
    | some o => some ((s.umsComplistDeinit o).setPc t (.retiring k a))
  | .retiring k a =>
    match s.obj a with
    | none => some (s.crash t)
    | some _ => some { s.putReturns t a k with retired := Function.update s.retired a true }
  -- `rhashtable_remove_fast`; a worker then leaves the read section of `ums_worker_end`
  | .dropping r a =>
    some { (s.unlock t a).setPc t .user with
      table := Function.update s.table r ((s.table r).erase t) }

/-- `copy_to_user` fails: `create_ums_complist` removes the id and frees the object at once,
`ums_complist_dqcontext` puts the first context back. -/
def copyFails : Option Registry :=
  match s.pc t with
  | .creating a _ [] =>
    match s.obj a with
    | none => some (s.crash t)
    | some o =>
      some ({ s.umsComplistDeinit o with obj := Function.update s.obj a none }.setPc t .user)
  | .reporting a c =>
    match s.obj a, umsCompletionListAdd s.heap a c complistAddHead with
    | some _, some h => some { s.leave t a with heap := h }
    | _, _ => some (s.crash t)
  | _ => none

end Registry

inductive RegAct where
  -- `IOCTL_CREATE_UMS_CLIST`, for which the id table picks the free id `i`
  | create (t : Pid) (i : ListId)
  | enter (t : Pid) (r : Role) (i : ListId)
  | delete (t : Pid) (i : ListId)
  | dequeue (t : Pid) (i : ListId)
  -- `ums_worker_end`
  | endWorker (t : Pid)
  | run (t : Pid)
  | copyFails (t : Pid)
  -- a signal ends the wait loop of a dequeue
  | interrupt (t : Pid)
  -- there is no memory for a startup event
  | noEvent (t : Pid)
  -- some scheduler runs the worker again
  | resume (t : Pid)
  -- the RCU callback
  | free (a : Addr)
  deriving DecidableEq

def Registry.step (s : Registry) : RegAct → Option Registry
  | .create t i =>
    if s.pc t = .user ∧ 1 ≤ i ∧ s.idr i = none then some (s.publish t i) else none
  | .enter t r i =>
    if s.pc t = .user ∧ t ∉ s.table r then
      let s := s.createContext t r
      match s.idr i with
      -- the error path puts the list that the new context does not have yet
      | none => some (s.crash t)
      | some a => some (s.hold t a (.attaching r a))
    else none
  | .delete t i =>
    if s.pc t = .user then
      match s.idr i with
      | none => some s
      | some a => some (s.hold t a (.deleting a))
    else none
  | .dequeue t i =>
    if s.pc t = .user then
      match s.idr i with
      | none => some s
      | some a =>
        if t ∈ s.table .scheduler then some (s.hold t a (.dequeuing a)) else some s
    else none
  | .endWorker t =>
    if s.pc t = .user then
      if t ∈ s.table .worker then
        match s.complist (.worker, t) with
        | none => some (s.crash t)
        | some a =>
          some { s.setPc t (.ending .worker a) with
            readers := Function.update s.readers a (t :: s.readers a) }
      else some s
    else none
  | .run t => s.advance t
  | .copyFails t => s.copyFails t
  | .interrupt t =>
    match s.pc t with
    | .dequeuing a => some (s.leave t a)
    | _ => none
  | .noEvent t =>
    match s.pc t with
    | .startup a => some (s.setPc t (.ending .scheduler a))
    | _ => none
  | .resume t => if s.pc t = .suspended then some (s.setPc t .user) else none
  | .free a =>
    -- a grace period has passed
    if s.retired a = true ∧ s.readers a = [] then
      some { s with obj := Function.update s.obj a none }
    else none

/-- The list whose memory a thread is going to read or write. -/
def RegPc.worksOn : RegPc → Option Addr
  | .creating a _ _ | .attaching _ a | .inserting a | .deleting a | .dequeuing a | .reporting a _
  | .ending _ a | .removing _ a | .retiring _ a => some a
  | .user | .storing _ _ | .startup _ | .suspended | .dropping _ _ | .oops => none

namespace Registry

variable {s s' : Registry} {act : RegAct} {t : Pid}

/-- What thread `t` is going to do goes through freed memory, or through a list that is broken. -/
inductive Breaks (s : Registry) (t : Pid) : Prop where
  | freed (a : Addr) (hp : (s.pc t).worksOn = some a) (ho : s.obj a = none)
  | insert (a : Addr) (ht : s.pc t = .inserting a)
      (hadd : umsCompletionListAdd s.heap a s.nextContext complistAddTail = none)
  | take (a : Addr) (ht : s.pc t = .dequeuing a) (hne : listEmpty s.heap (.head a) = false)
      (htake : ∀ c h, doDequeueUmsComplistContext s.heap a ≠ some (.context c, h))
  | putBack (a : Addr) (c : Pid) (ht : s.pc t = .reporting a c)
      (hadd : umsCompletionListAdd s.heap a c complistAddHead = none)

/-- The states after a step, with what the thread has seen on its way there. -/
inductive Steps (s : Registry) : RegAct → Registry → Prop where
  | publish (t : Pid) (i : ListId) (ht : s.pc t = .user) (hi : 1 ≤ i) (hfree : s.idr i = none) :
      Steps s (.create t i) (s.publish t i)
  -- calls that find nothing
  | enterNone (t : Pid) (r : Role) (i : ListId) (ht : s.pc t = .user) (hnone : s.idr i = none) :
      Steps s (.enter t r i) ((s.createContext t r).crash t)
  | deleteNone (t : Pid) (i : ListId) : Steps s (.delete t i) s
  | dequeueNone (t : Pid) (i : ListId) : Steps s (.dequeue t i) s
  | endNone (t : Pid) : Steps s (.endWorker t) s
  | endUnassigned (t : Pid) (ht : s.pc t = .user) (hw : t ∈ s.table .worker)
      (hc : s.complist (.worker, t) = none) : Steps s (.endWorker t) (s.crash t)
  -- lookups
  | enter (t : Pid) (r : Role) (i : ListId) (a : Addr) (ht : s.pc t = .user)
      (hnew : t ∉ s.table r) (hidr : s.idr i = some a) :
      Steps s (.enter t r i) ((s.createContext t r).hold t a (.attaching r a))
  | delete (t : Pid) (i : ListId) (a : Addr) (ht : s.pc t = .user) (hidr : s.idr i = some a) :
      Steps s (.delete t i) (s.hold t a (.deleting a))
  | dequeue (t : Pid) (i : ListId) (a : Addr) (ht : s.pc t = .user) (hidr : s.idr i = some a) :
      Steps s (.dequeue t i) (s.hold t a (.dequeuing a))
  | endWorker (t : Pid) (a : Addr) (ht : s.pc t = .user) (hw : t ∈ s.table .worker)
      (hc : s.complist (.worker, t) = some a) :
      Steps s (.endWorker t) { s.setPc t (.ending .worker a) with
        readers := Function.update s.readers a (t :: s.readers a) }
  -- inside the module
  | initStep (t : Pid) (a : Addr) (i : ListId) (op : InitOp) (ops : List InitOp) (o : UmsComplist)
      (ht : s.pc t = .creating a i (op :: ops)) (ho : s.obj a = some o) :
      Steps s (.run t) ((s.initStep a i o op).setPc t (.creating a i ops))
  | created (t : Pid) (a : Addr) (i : ListId) (ht : s.pc t = .creating a i []) :
      Steps s (.run t) { s.setPc t .user with ready := Function.update s.ready a true }
  | get (t : Pid) (r : Role) (a : Addr) (o : UmsComplist) (ht : s.pc t = .attaching r a)
      (ho : s.obj a = some o) :
      Steps s (.run t) (((s.getUmsComplist a o).unlock t a).setPc t (.storing r a))
  | storeWorker (t : Pid) (a : Addr) (ht : s.pc t = .storing .worker a) :
      Steps s (.run t) ((s.storeComplist t a .worker).setPc t (.inserting a))
  | storeScheduler (t : Pid) (a : Addr) (ht : s.pc t = .storing .scheduler a) :
      Steps s (.run t) (((s.storeComplist t a .scheduler).done t a).setPc t (.startup a))
  | insert (t : Pid) (a : Addr) (h : Heap Node) (ht : s.pc t = .inserting a)
      (hadd : umsCompletionListAdd s.heap a s.nextContext complistAddTail = some h) :
      Steps s (.run t) { (s.done t a).setPc t .suspended with
        heap := h, nextContext := s.nextContext + 1 }
  | started (t : Pid) (a : Addr) (ht : s.pc t = .startup a) : Steps s (.run t) (s.setPc t .user)
  | putDeleted (t : Pid) (a : Addr) (o : UmsComplist) (ht : s.pc t = .deleting a)
      (ho : s.obj a = some o) :
      Steps s (.run t) ({ s with
        deletes := Function.update s.deletes a (s.deletes a + 1) }.putUmsComplist t a o none)
  | take (t : Pid) (a : Addr) (c : Pid) (h : Heap Node) (ht : s.pc t = .dequeuing a)
      (hne : listEmpty s.heap (.head a) = false)
      (htake : doDequeueUmsComplistContext s.heap a = some (.context c, h)) :
      Steps s (.run t) { s.setPc t (.reporting a c) with heap := h }
  | report (t : Pid) (a : Addr) (c : Pid) (ht : s.pc t = .reporting a c) :
      Steps s (.run t) (s.leave t a)
  | putEnded (t : Pid) (r : Role) (a : Addr) (o : UmsComplist) (ht : s.pc t = .ending r a)
      (ho : s.obj a = some o) : Steps s (.run t) (s.putUmsComplist t a o (some r))
  | remove (t : Pid) (k : Option Role) (a : Addr) (o : UmsComplist) (ht : s.pc t = .removing k a)
      (ho : s.obj a = some o) : Steps s (.run t) ((s.umsComplistDeinit o).setPc t (.retiring k a))
  | retire (t : Pid) (k : Option Role) (a : Addr) (ht : s.pc t = .retiring k a) :
      Steps s (.run t) { s.putReturns t a k with retired := Function.update s.retired a true }
  | drop (t : Pid) (r : Role) (a : Addr) (ht : s.pc t = .dropping r a) :
      Steps s (.run t) { (s.unlock t a).setPc t .user with
        table := Function.update s.table r ((s.table r).erase t) }
  | runBreaks (t : Pid) (hb : s.Breaks t) : Steps s (.run t) (s.crash t)
  -- a failing copy to user space
  | discard (t : Pid) (a : Addr) (i : ListId) (o : UmsComplist) (ht : s.pc t = .creating a i [])
      (ho : s.obj a = some o) :
      Steps s (.copyFails t) ({ s.umsComplistDeinit o with
        obj := Function.update s.obj a none }.setPc t .user)
  | putBack (t : Pid) (a : Addr) (c : Pid) (h : Heap Node) (ht : s.pc t = .reporting a c)
      (hadd : umsCompletionListAdd s.heap a c complistAddHead = some h) :
      Steps s (.copyFails t) { s.leave t a with heap := h }
  | copyBreaks (t : Pid) (hb : s.Breaks t) : Steps s (.copyFails t) (s.crash t)
  -- from outside
  | interrupt (t : Pid) (a : Addr) (ht : s.pc t = .dequeuing a) :
      Steps s (.interrupt t) (s.leave t a)
  | noEvent (t : Pid) (a : Addr) (ht : s.pc t = .startup a) :
      Steps s (.noEvent t) (s.setPc t (.ending .scheduler a))
  | resume (t : Pid) (ht : s.pc t = .suspended) : Steps s (.resume t) (s.setPc t .user)
  | free (a : Addr) (hret : s.retired a = true) :
      Steps s (.free a) { s with obj := Function.update s.obj a none }

theorem advance_steps (h : s.advance t = some s') : s.Steps (.run t) s' := by
  have hfreed {p : RegPc} {a : Addr} (ht : s.pc t = p) (hp : p.worksOn = some a)
      (ho : s.obj a = none) : s.Breaks t := .freed a (by rw [ht, hp]) ho
  -- one case per place of the calling thread; a freed list breaks every step that works on it
  unfold advance at h
  split at h
  · cases h
  · cases h
  · cases h
  · rename_i a i op ops ht
    split at h <;> cases h
    · exact .runBreaks t (hfreed ht rfl ‹_›)
    · exact .initStep t a i op ops _ ht ‹_›
  · rename_i a i ht
    cases h
    exact .created t a i ht
  · rename_i r a ht
    split at h <;> cases h
    · exact .runBreaks t (hfreed ht rfl ‹_›)
    · exact .get t r a _ ht ‹_›
  · rename_i r a ht
    cases r <;> cases h
    · exact .storeWorker t a ht
    · exact .storeScheduler t a ht
  · rename_i a ht
    split at h <;> cases h
    · exact .insert t a _ ht ‹_›
    · rename_i hnone
      refine .runBreaks t ?_
      cases ho : s.obj a with
      | none => exact hfreed ht rfl ho
      | some o =>
        refine .insert a ht (Option.eq_none_iff_forall_ne_some.mpr fun h' hadd => ?_)
        exact hnone o h' ho hadd
  · rename_i a ht
    cases h
    exact .started t a ht
  · rename_i a ht
    split at h <;> cases h
    · exact .runBreaks t (hfreed ht rfl ‹_›)
    · exact .putDeleted t a _ ht ‹_›
  · rename_i a ht
    split at h
    · cases h
      exact .runBreaks t (hfreed ht rfl ‹_›)
    · split at h
      · cases h
      · rename_i hempty
        have hne : listEmpty s.heap (.head a) = false := Bool.eq_false_iff.mpr hempty
        split at h <;> cases h
        · exact .take t a _ _ ht hne ‹_›
        · rename_i hno
          exact .runBreaks t (.take a ht hne hno)
  · rename_i a c ht
    cases h
    exact .report t a c ht
  · rename_i r a ht
    split at h <;> cases h
    · exact .runBreaks t (hfreed ht rfl ‹_›)
    · exact .putEnded t r a _ ht ‹_›
  · rename_i k a ht
    split at h <;> cases h
    · exact .runBreaks t (hfreed ht rfl ‹_›)
    · exact .remove t k a _ ht ‹_›
  · rename_i k a ht
    split at h <;> cases h
    · exact .runBreaks t (hfreed ht rfl ‹_›)
    · exact .retire t k a ht
  · rename_i r a ht
    cases h
    exact .drop t r a ht

theorem copyFails_steps (h : s.copyFails t = some s') : s.Steps (.copyFails t) s' := by
  unfold copyFails at h
  split at h
  · rename_i a i ht
    split at h <;> cases h
    · exact .copyBreaks t (.freed a (by rw [ht]; rfl) ‹_›)
    · exact .discard t a i _ ht ‹_›
  · rename_i a c ht
    split at h <;> cases h
    · exact .putBack t a c _ ht ‹_›
    · rename_i hnone
      refine .copyBreaks t ?_
      cases ho : s.obj a with
      | none => exact .freed a (by rw [ht]; rfl) ho
      | some o =>
        refine .putBack a c ht (Option.eq_none_iff_forall_ne_some.mpr fun h' hadd => ?_)
        exact hnone o h' ho hadd
  · cases h

/-- The step function does nothing else. -/
theorem step_steps (h : s.step act = some s') : s.Steps act s' := by
  cases act with
  | create t i =>
    simp only [step] at h
    split at h <;> cases h
    rename_i hok
    exact .publish t i hok.1 hok.2.1 hok.2.2
  | enter t r i =>
    simp only [step] at h
    split at h
    · rename_i hok
      split at h <;> cases h
      · exact .enterNone t r i hok.1 ‹_›
      · exact .enter t r i _ hok.1 hok.2 ‹_›
    · cases h
  | delete t i =>
    simp only [step] at h
    split at h
    · split at h <;> cases h
      · exact .deleteNone t i
      · exact .delete t i _ ‹_› ‹_›
    · cases h
  | dequeue t i =>
    simp only [step] at h
    split at h
    · split at h
      · cases h
        exact .dequeueNone t i
      · split at h <;> cases h
        · exact .dequeue t i _ ‹_› ‹_›
        · exact .dequeueNone t i
    · cases h
  | endWorker t =>
    simp only [step] at h
    split at h
    · split at h
      · split at h <;> cases h
        · exact .endUnassigned t ‹_› ‹_› ‹_›
        · exact .endWorker t _ ‹_› ‹_› ‹_›
      · cases h
        exact .endNone t
    · cases h
  | run t => exact advance_steps h
  | copyFails t => exact copyFails_steps h
  | interrupt t =>
    simp only [step] at h
    split at h <;> cases h
    exact .interrupt t _ ‹_›
  | noEvent t =>
    simp only [step] at h
    split at h <;> cases h
    exact .noEvent t _ ‹_›
  | resume t =>
    simp only [step] at h
    split at h <;> cases h
    exact .resume t ‹_›
  | free a =>
    simp only [step] at h
    split at h <;> cases h
    rename_i hok
    exact .free a hok.1

end Registry

end LinuxUms
