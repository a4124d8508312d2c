import LinuxUms.Device
import LinuxUms.ListPrograms

/-! The completion lists at the level of single loads and stores, with `complist->lock` and
`complist->wait_q`. `ums_completion_list_add` and `do_dequeue_ums_complist_context` change a list
under its lock, `ums_complist_next_context` changes a batch without any lock, and
`wait_event_interruptible` looks at a list without its lock. All else is as in the device. -/
namespace LinuxUms

open KernelList StoreProgram

/-- `ums_completion_list_add` between `spin_lock` and `spin_unlock`. -/
def umsCompletionListAddProg (complist : ListId) (context : Pid) (flags : ℕ) : ListProg Node :=
  if flags &&& complistAddHead ≠ 0 then
    ListProg.listAdd (.context context) (.head complist) (.ret none)
  else if flags &&& complistAddTail ≠ 0 then
    ListProg.listAddTail (.context context) (.head complist) (.ret none)
  else .ret none

/-- Where a thread is in the code of a completion list. -/
inductive ListPlace where
  -- outside, or before `spin_lock`
  | out
  -- among the loads and stores; at its end before `spin_unlock`
  | body (p : ListProg Node)
  -- before `wake_up_all`
  | wake
  -- `wait_event_interruptible`: the test before the wait
  | first
  -- in its loop: `prepare_to_wait_event`, the test, with `-ERESTARTSYS` or not, and `schedule()`
  | prepare
  | test (interrupted : Bool)
  | sleep
  -- `finish_wait`
  | finish

/-- `waiters` is what is in `wait_q`, and `signalled` is `signal_pending` of a thread that waits.
A thread at `enterAdd`, `yieldAdd`, `dqTest`, `dqWait` or `nextContext` of the device is at
`place` there. -/
structure StoreDevice where
  dev : Device
  lock : ListId → Option Pid
  waiters : ListId → List Pid
  signalled : Pid → Bool
  place : Pid → ListPlace

/-- The completion list that a thread works on. -/
def Device.listOf (s : Device) (t : Pid) : Option ListId :=
  match s.pc t with
  | .enterAdd l | .dqTest l | .dqWait l => some l
  | .yieldAdd => (s.worker t).bind Worker.complist
  | _ => none

/-- Where a worker goes that is in its completion list. -/
def Pc.added : Pc → Pc
  | .enterAdd _ => .schedule .enterWorker
  | .yieldAdd => .schedule .yield
  | c => c

namespace StoreDevice

def init : StoreDevice where
  dev := .init
  lock _ := none
  waiters _ := []
  signalled _ := false
  place _ := .out

def setDev (s : StoreDevice) (d : Device) : StoreDevice :=
  { s with dev := d }

def goto (s : StoreDevice) (t : Pid) (x : ListPlace) : StoreDevice :=
  { s with place := Function.update s.place t x }

def crash (s : StoreDevice) : StoreDevice :=
  s.setDev s.dev.crash

/-- `spin_lock(&complist->lock)`; the code that it protects comes next. -/
def spinLock (s : StoreDevice) (t : Pid) (l : ListId) (p : ListProg Node) : Option StoreDevice :=
  if s.lock l = none then
    some ({ s with lock := Function.update s.lock l (some t) }.goto t (.body p))
  else none

def spinUnlock (s : StoreDevice) (l : ListId) : StoreDevice :=
  { s with lock := Function.update s.lock l none }

/-- The next step of a thread that is not in the code of a list yet. -/
def enter (s : StoreDevice) (t : Pid) : Pc → Option StoreDevice
  | .enterAdd l => s.spinLock t l (umsCompletionListAddProg l t complistAddTail)
  | .yieldAdd =>
    match s.dev.worker t with
    | some ⟨_, some l⟩ => s.spinLock t l (umsCompletionListAddProg l t complistAddTail)
    | _ => some s.crash
  | .dqTest l | .dqWait l => s.spinLock t l (ListProg.pop (.head l))
  | .nextContext c => some (s.goto t (.body (ListProg.pop (.context c))))
  | c => (s.dev.advance t c).map s.setDev

/-- `spin_unlock` at the end of `ums_completion_list_add`. -/
def leaveAdd (s : StoreDevice) (t : Pid) (l : ListId) : StoreDevice :=
  ((s.spinUnlock l).setDev (s.dev.log (.queued t l))).goto t .wake

/-- `spin_unlock` in `do_dequeue_ums_complist_context`, with a context or before the wait. A
signal that came during the wait is taken when the call returns. -/
def leaveDequeue (s : StoreDevice) (t : Pid) (l : ListId) : Option Node → StoreDevice
  | some (.context c) =>
    { s.spinUnlock l with
      dev := { s.dev with
        batches := Function.update s.dev.batches t ([c] :: s.dev.batches t)
        pc := Function.update s.dev.pc t .dqReturn }
      signalled := Function.update s.signalled t false }.goto t .out
  | none => ((s.spinUnlock l).setDev (s.dev.setPc t (.dqWait l))).goto t .first
  | some (.head _) => s.crash

/-- The end of `ums_complist_next_context`. -/
def leaveNext (s : StoreDevice) (t c : Pid) : Option Node → StoreDevice
  | some (.context e) =>
    (s.setDev ({ s.dev with
      batches := Function.update s.dev.batches t (handNext c e (s.dev.batches t))
      }.ret t .nextContext .ok)).goto t .out
  | none =>
    (s.setDev ({ s.dev with
      batches := Function.update s.dev.batches t (closeBatch c (s.dev.batches t)).2
      ready := Function.update s.dev.ready t
        (s.dev.ready t ++ (closeBatch c (s.dev.batches t)).1)
      }.ret t .nextContext .ok)).goto t .out
  | some (.head _) => s.crash

/-- The loads and stores are done, with the result `r`. -/
def leave (s : StoreDevice) (t : Pid) (r : Option Node) : Pc → StoreDevice
  | .enterAdd l => s.leaveAdd t l
  | .yieldAdd =>
    match s.dev.worker t with
    | some ⟨_, some l⟩ => s.leaveAdd t l
    | _ => s.crash
  | .dqTest l | .dqWait l => s.leaveDequeue t l r
  | .nextContext c => s.leaveNext t c r
  | _ => s.crash

/-- `wake_up_all(&complist->wait_q)`. A thread that is woken is taken off the queue. -/
def wakeUpAll (s : StoreDevice) (l : ListId) : StoreDevice :=
  { s with
    dev := { s.dev with
      task := fun u => if u ∈ s.waiters l then .running else s.dev.task u }
    waiters := Function.update s.waiters l
      ((s.waiters l).filter (fun u => s.dev.task u = .running)) }

def wakeUp (s : StoreDevice) (t : Pid) : StoreDevice :=
  match s.dev.listOf t with
  | some l =>
    let s' := s.wakeUpAll l
    (s'.setDev (s'.dev.setPc t (s.dev.pc t).added)).goto t .out
  | none => s.crash

/-- The next load or store. -/
def access (s : StoreDevice) (t : Pid) (p : ListProg Node) : StoreDevice :=
  match p.step (cells s.dev.heap) with
  | some (p', m) => (s.setDev { s.dev with heap := ofCells m }).goto t (.body p')
  | none =>
    match p with
    | .ret r => s.leave t r (s.dev.pc t)
    | _ => s.crash

/-- `wait_event_interruptible(complist->wait_q, !list_empty(&complist->head))`. -/
def wait (s : StoreDevice) (t : Pid) (l : ListId) : ListPlace → Option StoreDevice
  | .first => some (s.goto t (if listEmpty s.dev.heap (.head l) then .prepare else .out))
  | .prepare =>
    if s.signalled t then
      some ({ s with
        waiters := Function.update s.waiters l ((s.waiters l).erase t) }.goto t (.test true))
    else
      some ({ s with
        dev := s.dev.setTask t .interruptible
        waiters := Function.update s.waiters l
          (if t ∈ s.waiters l then s.waiters l else t :: s.waiters l) }.goto t (.test false))
  | .test interrupted =>
    if listEmpty s.dev.heap (.head l) then
      if interrupted then
        some ({ s with
          dev := s.dev.ret t .dqcontext .erestartsys
          signalled := Function.update s.signalled t false }.goto t .out)
      else some (s.goto t .sleep)
    else some (s.goto t .finish)
  | .sleep => if s.dev.task t = .running then some (s.goto t .prepare) else none
  | .finish =>
    some ({ s with
      dev := s.dev.setTask t .running
      waiters := Function.update s.waiters l ((s.waiters l).erase t) }.goto t .out)
  | .out | .body _ | .wake => none

/-- The next step of thread `t`. -/
def run (s : StoreDevice) (t : Pid) : Option StoreDevice :=
  match s.place t with
  | .out => s.enter t (s.dev.pc t)
  | .body p => some (s.access t p)
  | .wake => some (s.wakeUp t)
  | x =>
    match s.dev.pc t with
    | .dqWait l => s.wait t l x
    | _ => none

/-- A signal to a thread that waits for contexts is pending until the wait looks at it. -/
def signal (s : StoreDevice) (t : Pid) : Option StoreDevice :=
  match s.dev.pc t with
  | .dqWait _ => some { s with
      dev := s.dev.setTask t .running
      signalled := Function.update s.signalled t true }
  | _ => (s.dev.step (.signal t)).map s.setDev

def step (s : StoreDevice) : DeviceAct → Option StoreDevice
  | .run t => s.run t
  | .signal t => s.signal t
  | a => (s.dev.step a).map s.setDev

end StoreDevice

def StoreReachable : StoreDevice → Prop :=
  Transition.Reach StoreDevice.step (fun s a => Protocol s.dev a ∧ Calm s.dev a) StoreDevice.init

end LinuxUms
