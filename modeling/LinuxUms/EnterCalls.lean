import LinuxUms.Directories
import LinuxUms.ListIds

/-! The enters of `scheduler.c` and `worker.c` with all that can fail on the way, and the other
calls that change the tables, procfs, the references to tasks and those to completion lists. Calls
are made one after the other. -/
namespace LinuxUms

open ProcTree

/-- The members of a `struct ums_scheduler` or a `struct ums_worker`. -/
inductive Field where
  | task
  | pid
  | state
  | switches
  | data
  | lock
  | eventQ
  | schedWaitQ
  | dirs
  | node
  | complist
  deriving DecidableEq

/-- An object from `kmalloc`: the members that have been assigned, and the list that `complist`
leads to once it has. -/
structure UmsObject where
  assigned : List Field
  complist : Option ℕ

def UmsObject.assign (o : UmsObject) (fs : List Field) : UmsObject :=
  { o with assigned := fs ++ o.assigned }

inductive EnterError where
  | enomem
  | einval
  -- what `rhashtable_insert_fast` returns
  | insert
  deriving DecidableEq

/-- What goes well in an enter besides the registration in procfs. `stray` is the list that a
pointer never assigned leads to, if it leads to one. -/
structure EnterLuck where
  object : Bool := true
  insert : Bool := true
  startup : Bool := true
  stray : Option ℕ := none

/-- `usage` counts the references of the contexts to a task, and `pending` are the tasks whose
reference is dropped by a callback of `call_rcu`. `junk` are the members that were read before they
were assigned. -/
structure Enters where
  proc : Procfs
  table : Role → List Pid
  object : Role → Pid → UmsObject
  lists : Ids.State
  usage : Pid → ℕ
  pending : List Pid
  junk : List (Role × Field)
  opened : Bool

namespace Enters

def init : Enters where
  proc := .init
  table _ := []
  object _ _ := ⟨[], none⟩
  lists := .init
  usage _ := 0
  pending := []
  junk := []
  opened := false

/-- The reference to the task, and the members that this assigns. -/
def umsContextInit (s : Enters) (t : Pid) (o : UmsObject) : UmsObject × Enters :=
  (o.assign [.task, .pid, .state, .switches],
    { s with usage := Function.update s.usage t (s.usage t + 1) })

/-- What the two `init` functions assign before the registration. -/
def ownFields : Role → List Field
  | .worker => [.data]
  | .scheduler => [.data, .lock, .eventQ, .schedWaitQ]

def umsInit (s : Enters) (t : Pid) (f : ProcRegister) (luck : EnterLuck) (o : UmsObject) :
    Except EnterError UmsObject × Enters :=
  let (o, s) := s.umsContextInit t o
  let o := o.assign (ownFields f.role)
  match s.proc.register t f with
  | (false, P) => (.error .enomem, { s with proc := P })
  | (true, P) =>
    if luck.insert then
      (.ok (o.assign [.dirs, .node]),
        { s with proc := P, table := Function.update s.table f.role (t :: s.table f.role) })
    -- the object is freed by the caller, and nobody knows its directories any more
    else (.error .insert, { s with proc := P.forget t f.role })

def umsCreate (s : Enters) (t : Pid) (f : ProcRegister) (luck : EnterLuck) :
    Except EnterError UmsObject × Enters :=
  if luck.object then s.umsInit t f luck ⟨[], none⟩ else (.error .enomem, s)

def umsSchedulerCreate (s : Enters) (t : Pid) (f : SchedulerRegister) (luck : EnterLuck) :
    Except EnterError UmsObject × Enters :=
  s.umsCreate t (.scheduler f) luck

def umsWorkerCreate (s : Enters) (t : Pid) (f : WorkerRegister) (luck : EnterLuck) :
    Except EnterError UmsObject × Enters :=
  s.umsCreate t (.worker f) luck

/-- The members that the two `destroy` functions read. -/
def destroyReads : Role → List Field
  | .worker => [.complist, .dirs, .data, .node]
  | .scheduler => [.lock, .eventQ, .complist, .dirs, .data, .node]

/-- The put, the directories, the entry of the table, and the callback that drops the task. -/
def umsDestroy (s : Enters) (t : Pid) (r : Role) (o : UmsObject) (stray : Option ℕ) : Enters :=
  let complist := if .complist ∈ o.assigned then o.complist else stray
  { s with
    lists := s.lists.putPointer complist
    proc := s.proc.unregister t r
    table := Function.update s.table r ((s.table r).erase t)
    pending := t :: s.pending
    junk := ((destroyReads r).filter (· ∉ o.assigned)).map (r, ·) ++ s.junk }

def umsSchedulerDestroy (s : Enters) (t : Pid) : UmsObject → Option ℕ → Enters :=
  s.umsDestroy t .scheduler

def umsWorkerDestroy (s : Enters) (t : Pid) : UmsObject → Option ℕ → Enters :=
  s.umsDestroy t .worker

/-- The reference to the list that was found, and the assignment of `complist`. -/
def withComplist (o : UmsObject) (l : ℕ) : UmsObject :=
  { o.assign [.complist] with complist := some l }

/-- The error, or `none` for 0. -/
def enterUmsSchedulerMode (s : Enters) (t : Pid) (f : SchedulerRegister) (id : ℤ)
    (luck : EnterLuck) : Option EnterError × Enters :=
  match s.umsSchedulerCreate t f luck with
  | (.error e, s) => (some e, s)
  | (.ok o, s) =>
    match s.lists.compLists id with
    | none => (some .einval, s.umsSchedulerDestroy t o luck.stray)
    | some l =>
      let s := { s with lists := s.lists.getUmsComplist l }
      let o := withComplist o l
      if luck.startup then
        (none, { s with
          object := Function.update s.object .scheduler
            (Function.update (s.object .scheduler) t o) })
      else (some .enomem, s.umsSchedulerDestroy t o luck.stray)

/-- The worker then goes to sleep in the list, until it is executed. -/
def enterUmsWorkerMode (s : Enters) (t : Pid) (f : WorkerRegister) (id : ℤ) (luck : EnterLuck) :
    Option EnterError × Enters :=
  match s.umsWorkerCreate t f luck with
  | (.error e, s) => (some e, s)
  | (.ok o, s) =>
    match s.lists.compLists id with
    | none => (some .einval, s.umsWorkerDestroy t o luck.stray)
    | some l =>
      let s := { s with lists := s.lists.getUmsComplist l }
      (none, { s with
        object := Function.update s.object .worker
          (Function.update (s.object .worker) t (withComplist o l)) })

def enterUmsMode (s : Enters) (t : Pid) (f : ProcRegister) (id : ℤ) (luck : EnterLuck) :
    Option EnterError × Enters :=
  match f with
  | .scheduler f => s.enterUmsSchedulerMode t f id luck
  | .worker f => s.enterUmsWorkerMode t f id luck

/-- `ums_dev_open`; `tables` says that both hash tables can be allocated. -/
def umsDevOpen (s : Enters) (pid : Pid) (dirs : DirsInit) (tables : Bool) : Enters :=
  match s.proc.umsProcDirsInit pid dirs with
  | (false, P) => { s with proc := P }
  | (true, P) =>
    if tables then { s with proc := P, lists := .init, opened := true }
    else { s with proc := P.umsProcDirsDestroy }

/-- `ums_dev_release`, which goes through the tables in the orders `ws` and `ss`; the lists are
gone with the device. -/
def umsDevRelease (s : Enters) (ws ss : List Pid) : Enters :=
  { s with
    proc := (ss.foldl Procfs.umsSchedulerProcUnregister
      (ws.foldl Procfs.umsWorkerProcUnregister s.proc)).umsProcDirsDestroy
    table := fun _ => []
    pending := ws ++ ss ++ s.pending
    opened := false }

end Enters

inductive EnterAct where
  | openDev (pid : Pid) (dirs : DirsInit) (tables : Bool)
  | create (luck : Ids.CreateLuck)
  | delete (id : ℤ)
  | enter (t : Pid) (f : ProcRegister) (id : ℤ) (luck : EnterLuck)
  -- `ums_worker_end`; `ok` says that there is memory for the event and that a parent is set
  | exit (t : Pid) (ok : Bool)
  -- the links that dequeues make and that executions remove, in any order
  | link (p c : Pid) (memory : Bool)
  | unlink (p c : Pid)
  -- a callback of `call_rcu` runs
  | grace (t : Pid)
  | release (ws ss : List Pid)

namespace Enters

def call (s : Enters) : EnterAct → Option Enters
  | .create luck => (s.lists.createUmsComplist luck).map fun r => { s with lists := r.2 }
  | .delete id => (s.lists.umsComplistDelete id).map fun r => { s with lists := r.2 }
  | .enter t f id luck => some (s.enterUmsMode t f id luck).2
  | .exit t ok =>
    if t ∈ s.table .worker ∧ ok then some (s.umsWorkerDestroy t (s.object .worker t) none)
    else some s
  | .link p c memory => some { s with proc := (s.proc.umsSchedulerProcRegisterWorker p c memory).2 }
  | .unlink p c => some { s with proc := s.proc.umsSchedulerProcUnregisterWorker p c }
  | .release ws ss =>
    if ws.isPerm (s.table .worker) ∧ ss.isPerm (s.table .scheduler) then
      some (s.umsDevRelease ws ss)
    else none
  | .openDev _ _ _ | .grace _ => none

def step (s : Enters) : EnterAct → Option Enters
  | .openDev pid dirs tables => if s.opened then none else some (s.umsDevOpen pid dirs tables)
  | .grace t =>
    if t ∈ s.pending then
      some { s with
        usage := Function.update s.usage t (s.usage t - 1)
        pending := s.pending.erase t }
    else none
  | act => if s.opened then s.call act else none

/-- The state when the object is created and in its table. -/
def created (s : Enters) (t : Pid) (r : Role) (P : Procfs) : Enters :=
  { s with
    usage := Function.update s.usage t (s.usage t + 1)
    proc := P
    table := Function.update s.table r (t :: s.table r) }

/-- The object at that point. -/
def newObject (r : Role) : UmsObject :=
  (((⟨[], none⟩ : UmsObject).assign [.task, .pid, .state, .switches]).assign (ownFields r)).assign
    [.dirs, .node]

inductive EnterEnd (s : Enters) (t : Pid) (f : ProcRegister) (id : ℤ) (luck : EnterLuck) :
    Option EnterError × Enters → Prop where
  | noObject (hobj : luck.object = false) : EnterEnd s t f id luck (some .enomem, s)
  | notRegistered (P : Procfs) (hobj : luck.object = true)
      (hreg : s.proc.register t f = (false, P)) :
      EnterEnd s t f id luck (some .enomem, { s with
        usage := Function.update s.usage t (s.usage t + 1)
        proc := P })
  | notInserted (P : Procfs) (hobj : luck.object = true)
      (hreg : s.proc.register t f = (true, P)) (hins : luck.insert = false) :
      EnterEnd s t f id luck (some .insert, { s with
        usage := Function.update s.usage t (s.usage t + 1)
        proc := P.forget t f.role })
  | unknownList (P : Procfs) (hobj : luck.object = true)
      (hreg : s.proc.register t f = (true, P)) (hins : luck.insert = true)
      (hid : s.lists.compLists id = none) :
      EnterEnd s t f id luck (some .einval,
        (s.created t f.role P).umsDestroy t f.role (newObject f.role) luck.stray)
  | noEvent (P : Procfs) (l : ℕ) (hobj : luck.object = true)
      (hreg : s.proc.register t f = (true, P)) (hins : luck.insert = true)
      (hid : s.lists.compLists id = some l) :
      EnterEnd s t f id luck (some .enomem,
        { s.created t f.role P with lists := s.lists.getUmsComplist l }.umsDestroy t f.role
          (withComplist (newObject f.role) l) luck.stray)
  | entered (P : Procfs) (l : ℕ) (o : UmsObject) (hobj : luck.object = true)
      (hreg : s.proc.register t f = (true, P)) (hins : luck.insert = true)
      (hid : s.lists.compLists id = some l) :
      EnterEnd s t f id luck (none, { s.created t f.role P with
        lists := s.lists.getUmsComplist l
        object := Function.update s.object f.role (Function.update (s.object f.role) t o) })

section Ends

variable {s s' : Enters} {t : Pid} {f : ProcRegister} {id : ℤ} {luck : EnterLuck} {o : UmsObject}

theorem enterUmsMode_of_error {e : EnterError} (h : s.umsCreate t f luck = (.error e, s')) :
    s.enterUmsMode t f id luck = (some e, s') := by
  cases f <;> simp only [enterUmsMode, enterUmsSchedulerMode, enterUmsWorkerMode,
    umsSchedulerCreate, umsWorkerCreate, h]

theorem enterUmsMode_of_unknown (h : s.umsCreate t f luck = (.ok o, s'))
    (hid : s'.lists.compLists id = none) :
    s.enterUmsMode t f id luck = (some .einval, s'.umsDestroy t f.role o luck.stray) := by
  cases f <;> simp only [enterUmsMode, enterUmsSchedulerMode, enterUmsWorkerMode,
    umsSchedulerCreate, umsWorkerCreate, umsSchedulerDestroy, umsWorkerDestroy, h, hid,
    ProcRegister.role]

/-- Only a scheduler can still fail when its list is found. -/
theorem enterUmsMode_of_found {l : ℕ} (h : s.umsCreate t f luck = (.ok o, s'))
    (hid : s'.lists.compLists id = some l) :
    s.enterUmsMode t f id luck = (some .enomem,
      { s' with lists := s'.lists.getUmsComplist l }.umsDestroy t f.role (withComplist o l)
        luck.stray) ∨
    s.enterUmsMode t f id luck = (none, { s' with
      lists := s'.lists.getUmsComplist l
      object := Function.update s'.object f.role
        (Function.update (s'.object f.role) t (withComplist o l)) }) := by
  cases f with
  | worker f =>
    right
    simp only [enterUmsMode, enterUmsWorkerMode, umsWorkerCreate, h, hid, ProcRegister.role]
  | scheduler f =>
    cases hst : luck.startup with
    | true =>
      right
      simp only [enterUmsMode, enterUmsSchedulerMode, umsSchedulerCreate, h, hid, hst, if_true,
        ProcRegister.role]
    | false =>
      left
      simp only [enterUmsMode, enterUmsSchedulerMode, umsSchedulerCreate, h, hid, hst,
        Bool.false_eq_true, if_false, umsSchedulerDestroy, ProcRegister.role]

/-- Every way through both calls. -/
theorem enterUmsMode_ends (s : Enters) (t : Pid) (f : ProcRegister) (id : ℤ) (luck : EnterLuck) :
    EnterEnd s t f id luck (s.enterUmsMode t f id luck) := by
  -- the checks in the order of the calls; each failure ends the enter where it happens
  cases hobj : luck.object with
  | false =>
    have hc : s.umsCreate t f luck = (.error .enomem, s) := by
      simp only [umsCreate, hobj, Bool.false_eq_true, if_false]
    rw [enterUmsMode_of_error hc]
    exact .noObject hobj
  | true =>
    cases hreg : s.proc.register t f with
    | mk made P =>
      cases made with
      | false =>
        have hc : s.umsCreate t f luck = (.error .enomem, { s with
            usage := Function.update s.usage t (s.usage t + 1), proc := P }) := by
          simp only [umsCreate, umsInit, umsContextInit, hobj, if_true, hreg]
        rw [enterUmsMode_of_error hc]
        exact .notRegistered P hobj hreg
      | true =>
        cases hins : luck.insert with
        | false =>
          have hc : s.umsCreate t f luck = (.error .insert, { s with
              usage := Function.update s.usage t (s.usage t + 1)
              proc := P.forget t f.role }) := by
            simp only [umsCreate, umsInit, umsContextInit, hobj, if_true, hreg, hins,
              Bool.false_eq_true, if_false]
          rw [enterUmsMode_of_error hc]
          exact .notInserted P hobj hreg hins
        | true =>
          have hc : s.umsCreate t f luck = (.ok (newObject f.role), s.created t f.role P) := by
            simp only [umsCreate, umsInit, umsContextInit, hobj, if_true, hreg, hins, created,
              newObject]
          cases hid : s.lists.compLists id with
          | none =>
            rw [enterUmsMode_of_unknown hc hid]
            exact .unknownList P hobj hreg hins hid
          | some l =>
            rcases enterUmsMode_of_found hc hid with h | h
            · rw [h]
              exact .noEvent P l hobj hreg hins hid
            · rw [h]
              exact .entered P l _ hobj hreg hins hid

end Ends

end Enters

end LinuxUms
