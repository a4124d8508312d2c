import LinuxUms.DeviceMoves

/-! The programs that schedule with the library: `examples/00-simple-example/main.c` and the
primality benchmark. Scheduler threads drain the completion list into a queue of their own and
execute from it, one worker for each event; worker threads yield a number of times and return.
A step is one statement of a thread between two ioctls, or one step of the device inside an
ioctl, in any order. -/
namespace LinuxUms

open KernelList Handoff

/-- The result of the call that thread `t` has just returned from. -/
def Device.returned (s : Device) (t : Pid) : Option Result :=
  if s.pc t = .user then
    match s.hist with
    | .ret u _ r :: _ => if u = t then some r else none
    | _ => none
  else none

/-- The list nodes of the program: `rq.head`, one for each thread, and the nodes it allocates. -/
inductive RqNode where
  | head (t : Pid)
  | node (a : ℕ)
  deriving DecidableEq

/-- The threads of a program, and how often each worker yields before it returns. The benchmark
initialises `rq` in the entry point, the example before it enters. -/
structure Program where
  compList : ListId
  schedulers : List Pid
  workers : List Pid
  yields : Pid → ℕ
  initInEntry : Bool
  disjoint : ∀ t ∈ schedulers, t ∉ workers
  positive : ∀ w ∈ workers, 0 < w

/-- The statement that a thread is at, or whose ioctl it is in. -/
inductive Stmt where
  -- `enter_ums_scheduling_mode`: the ioctl, and the loop over the events
  | enterSchedulingMode
  | dequeueEvent
  | schedEntryProc
  -- `get_next_context`
  | dequeueItems
  | addNode
  | nextItem
  | firstEntry
  -- `execute_next_context`
  | execute (node : ℕ)
  | freeNode (node : ℕ)
  -- `worker_wrapper_routine`, then the worker's function and the destructor of its key
  | enterWorker
  | func (yields : ℕ)
  | done
  deriving DecidableEq

/-- The state of the process. `args` is the context field that an ioctl fills in, `nodes` what the
allocated nodes hold, and `fault` is set by a bad pointer or a second `free`. -/
structure App where
  dev : Device
  code : Pid → Stmt
  event : Pid → Event
  args : Pid → Pid
  context : Pid → Pid
  rq : Heap RqNode
  nodes : ℕ → Option Pid
  next : ℕ
  fault : Bool

/-- What a statement finds: whether `malloc` has memory, what is in the memory that the kernel
allocates for a worker, and the argument of `ums_thread_yield`. -/
structure Env where
  malloc : Bool
  node : Links Node
  zero : Bool
  param : UserPtr

inductive AppAct where
  | user (t : Pid) (env : Env)
  | kernel (t : Pid)
  | signal (t : Pid)

namespace App

def init (P : Program) : App where
  dev := .init
  code t := if t ∈ P.schedulers then .enterSchedulingMode
    else if t ∈ P.workers then .enterWorker else .done
  event _ := .schedulerStartup
  args _ := 0
  context _ := 0
  rq _ := ⟨.null, .null⟩
  nodes _ := none
  next := 0
  fault := false

def goto (s : App) (t : Pid) (c : Stmt) : App :=
  { s with code := Function.update s.code t c }

def setDev (s : App) (d : Device) : App :=
  { s with dev := d }

def crash (s : App) : App :=
  { s with fault := true }

def initRq (s : App) (t : Pid) : App :=
  { s with rq := initListHead s.rq (.head t) }

/-- What the program does when the ioctl of its statement has returned `r`. The errno of
`-ERESTARTSYS` is `EINTR`, or the kernel makes the call again by itself. -/
def resume (P : Program) (s : App) (t : Pid) (r : Result) : Stmt → App
  | .enterSchedulingMode => s.goto t (if r = .ok then .dequeueEvent else .done)
  | .dequeueEvent =>
    match r with
    | .ok => s.goto t .schedEntryProc
    | .erestartsys => s
    | _ => s.goto t .done
  | .dequeueItems =>
    match r with
    | .ok => { s with context := Function.update s.context t (s.args t) }.goto t .addNode
    | .erestartsys => s
    -- `get_next_context` returns NULL, and the entry point returns
    | _ => s.goto t .dequeueEvent
  | .nextItem =>
    let context := getNextUmsListItem (if r = .ok then 0 else -1) (s.args t)
    { s with context := Function.update s.context t context }.goto t
      (if 0 < context then .addNode else .firstEntry)
  | .execute n => s.goto t (.freeNode n)
  | .enterWorker => s.goto t (if r = .ok then .func (P.yields t) else .done)
  | .func (k + 1) => s.goto t (.func k)
  | .func 0 => s.goto t .done
  | _ => s

/-- The device goes on to `d`; if that ends the ioctl of `t`, its program goes on too. -/
def enter (P : Program) (s : App) (t : Pid) (d : Device) : App :=
  match d.returned t with
  | some r => (s.setDev d).resume P t r (s.code t)
  | none => s.setDev d

def ioctl (P : Program) (s : App) (t : Pid) (a : DeviceAct) : Option App :=
  (s.dev.step a).map (s.enter P t)

/-- `sched_entry_proc`, for each of the three reasons, up to the test of `rq`. -/
def schedEntryProc (P : Program) (s : App) (t : Pid) : App :=
  let s := if P.initInEntry ∧ (entryCall 0 (s.event t)).reason = .schedulerStartup then s.initRq t
    else s
  s.goto t (if listEmpty s.rq (.head t) then .dequeueItems else .firstEntry)

/-- `malloc`, the assignment of the context, and `list_add_tail`. -/
def addNode (s : App) (t : Pid) (malloc : Bool) : App :=
  if malloc then
    match listAddTail s.rq (.node s.next) (.head t) with
    | some h => { s with
        rq := h
        nodes := Function.update s.nodes s.next (some (s.context t))
        next := s.next + 1 }.goto t .nextItem
    | none => s.crash
  else s.goto t .dequeueEvent

/-- `list_first_entry` and `list_del`. -/
def firstEntry (s : App) (t : Pid) : App :=
  match (s.rq (.head t)).next with
  | .node (.node n) =>
    match listDel s.rq (.node n) with
    | some h => { s with rq := h }.goto t (.execute n)
    | none => s.crash
  | _ => s.crash

def freeNode (s : App) (t : Pid) (n : ℕ) : App :=
  match s.nodes n with
  | some _ => { s with nodes := Function.update s.nodes n none }.goto t .dequeueEvent
  | none => s.crash

/-- The next statement of a thread that is in user code. -/
def user (P : Program) (s : App) (t : Pid) (env : Env) : Stmt → Option App
  | .enterSchedulingMode =>
    (if P.initInEntry then s else s.initRq t).ioctl P t (.enterScheduler t P.compList)
  | .dequeueEvent => s.ioctl P t (.dqevent t)
  | .schedEntryProc => some (s.schedEntryProc P t)
  | .dequeueItems => s.ioctl P t (.dqcontext t P.compList)
  | .addNode => some (s.addNode t env.malloc)
  | .nextItem => s.ioctl P t (.nextContext t (s.context t))
  | .firstEntry => some (s.firstEntry t)
  | .execute n =>
    match s.nodes n with
    | some c => s.ioctl P t (.exec t c)
    | none => some s.crash
  | .freeNode n => some (s.freeNode t n)
  | .enterWorker => s.ioctl P t (.enterWorker t P.compList env.node env.zero)
  | .func (_ + 1) => s.ioctl P t (.yield t env.param)
  | .func 0 => s.ioctl P t (.exit t)
  | .done => none

/-- What the next step of the kernel copies to the variables of thread `t`. -/
def copyToUser (s : App) (t : Pid) : App :=
  match s.dev.pc t with
  | .dqTest l =>
    if listEmpty s.dev.heap (.head l) then s
    else match doDequeueUmsComplistContext s.dev.heap l with
      | some (.context c, _) => { s with args := Function.update s.args t c }
      | _ => s
  | .nextContext c =>
    match umsComplistNextContext s.dev.heap c with
    | some (some (.context d), _) => { s with args := Function.update s.args t d }
    | some (none, _) => { s with args := Function.update s.args t (-1) }
    | _ => s
  | .evTest =>
    match s.dev.eventQ t with
    | e :: _ => { s with event := Function.update s.event t e }
    | [] => s
  | _ => s

def step (P : Program) (s : App) : AppAct → Option App
  | .user t env => if s.dev.pc t = .user then s.user P t env (s.code t) else none
  | .kernel t =>
    if s.dev.pc t = .user then none else (s.copyToUser t).ioctl P t (.run t)
  | .signal t => (s.dev.step (.signal t)).map s.setDev

variable {P : Program} {s s' : App} {t : Pid}

theorem user_of_step {env : Env} (hs : s.step P (.user t env) = some s') :
    s.dev.pc t = .user ∧ s.user P t env (s.code t) = some s' := by
  rw [step] at hs
  split at hs
  · rename_i hpc
    exact ⟨hpc, hs⟩
  · cases hs

theorem kernel_of_step (hs : s.step P (.kernel t) = some s') :
    s.dev.pc t ≠ .user ∧ (s.copyToUser t).ioctl P t (.run t) = some s' := by
  rw [step] at hs
  split at hs
  · cases hs
  · rename_i hpc
    exact ⟨hpc, hs⟩

end App

/-- Memory is there when it is asked for, and no signal reaches a suspended thread. -/
def Fair (s : App) : AppAct → Prop
  | .user _ env => env.malloc = true
  | .kernel _ => True
  | .signal t => Calm s.dev (.signal t)

instance (s : App) (a : AppAct) : Decidable (Fair s a) :=
  match a with
  | .user _ env => inferInstanceAs (Decidable (env.malloc = true))
  | .kernel _ => inferInstanceAs (Decidable True)
  | .signal t => inferInstanceAs (Decidable (Calm s.dev (.signal t)))

def AppReachable (P : Program) : App → Prop :=
  Transition.Reach (App.step P) Fair (App.init P)

/-- The node that a thread has taken off its queue. -/
def Stmt.node : Stmt → Option ℕ
  | .execute n | .freeNode n => some n
  | _ => none

/-- What a thread sees of itself in the program and in the device. `q` names the nodes in its run
queue, and `rq` is what they hold; `none` before `INIT_LIST_HEAD`. -/
@[ext]
structure View where
  pc : Pc
  batches : List (List Pid)
  ready : List Pid
  registered : Bool
  complist : Option (Option ListId)
  event : Event
  args : Pid
  context : Pid
  rq : Option (List (Option Pid))
  node : Option Pid
  execs : ℕ
  deliveries : ℕ

def App.view (s : App) (q : Pid → Option (List ℕ)) (t : Pid) : View where
  pc := s.dev.pc t
  batches := s.dev.batches t
  ready := s.dev.ready t
  registered := (s.dev.scheduler t).isSome
  complist := (s.dev.worker t).map Worker.complist
  event := s.event t
  args := s.args t
  context := s.context t
  rq := (q t).map (·.map s.nodes)
  node := (s.code t).node.bind s.nodes
  execs := (execsBy t s.dev.hist).length
  deliveries := deliveries t s.dev.hist

namespace View

/-- No batch is half drained, and the queue holds what the thread may execute. -/
def Idle (v : View) : Prop :=
  v.batches = [] ∧ (v.ready.map some).Perm (v.rq.getD [])

/-- Each event has been answered by an execution. -/
def Served (v : View) : Prop :=
  v.registered = true ∧ v.execs = v.deliveries

/-- The event at hand is still to be answered. -/
def Serving (v : View) : Prop :=
  v.registered = true ∧ v.execs + 1 = v.deliveries

/-- The worker that is about to be executed. -/
def held (v : View) : Stmt → List (Option Pid)
  | .execute _ => if v.pc = .user then [v.node] else []
  | _ => []

/-- What the thread has taken from the completion list and not executed, in the order in which it
is going to. `r` is what is still to come of the batch it is draining. -/
def pending (v : View) (c : Stmt) (r : List Pid) : List (Option Pid) :=
  match v.batches with
  | [] => v.held c ++ v.rq.getD []
  | b :: _ => (b.reverse ++ r).map some

theorem pending_idle {v : View} (hb : v.batches = []) (c : Stmt) (r : List Pid) :
    v.pending c r = v.held c ++ v.rq.getD [] := by
  rw [pending, hb]

end View

/-- What a thread has executed and is going to execute. -/
def App.dispatched (s : App) (q : Pid → Option (List ℕ)) (t : Pid) (r : List Pid) :
    List (Option Pid) :=
  (execsBy t s.dev.hist).map some ++ (s.view q t).pending (s.code t) r

/-- A scheduler thread: where it is in its ioctl, what it holds, and how the events it has got
and the workers it has executed go together. -/
def SchedAt (P : Program) (v : View) : Stmt → Prop
  | .enterSchedulingMode => v.Idle ∧ v.execs = 0 ∧ v.deliveries = 0 ∧
      ((v.pc = .user ∧ v.registered = false ∧ v.rq = none) ∨
        (v.pc = .schedAttach P.compList ∨ v.pc = .startup ∨ v.pc = .startReturn) ∧
          v.registered = true ∧ (v.rq = none ↔ P.initInEntry = true))
  | .dequeueEvent => v.Idle ∧ v.Served ∧
      (v.rq = none ↔ P.initInEntry = true ∧ v.deliveries = 0) ∧
      (v.pc = .user ∨ v.pc = .evTest ∨
        v.pc = .evReturn ∧ (v.event = .schedulerStartup ↔ v.deliveries = 0))
  | .schedEntryProc => v.Idle ∧ v.Serving ∧
      (v.rq = none ↔ P.initInEntry = true ∧ v.deliveries = 1) ∧ v.pc = .user ∧
      (v.event = .schedulerStartup ↔ v.deliveries = 1)
  | .dequeueItems => v.Serving ∧ v.ready = [] ∧ v.rq = some [] ∧
      ((v.pc = .user ∨ v.pc = .dqTest P.compList ∨ v.pc = .dqWait P.compList) ∧ v.batches = [] ∨
        v.pc = .dqReturn ∧ v.batches = [[v.args]])
  | .addNode => v.Serving ∧ v.ready = [] ∧ v.pc = .user ∧
      ∃ b, v.batches = [v.context :: b] ∧ v.rq = some (b.reverse.map some)
  | .nextItem => v.Serving ∧ v.ready = [] ∧ (v.pc = .user ∨ v.pc = .nextContext v.context) ∧
      ∃ b, v.batches = [v.context :: b] ∧ v.rq = some ((v.context :: b).reverse.map some)
  | .firstEntry => v.Idle ∧ v.Serving ∧ v.pc = .user ∧ ∃ x xs, v.rq = some (x :: xs)
  | .execute _ => v.rq ≠ none ∧ 0 < v.deliveries ∧ ∃ w, v.node = some w ∧
      ((v.Serving ∧ v.pc = .user ∧ v.batches = [] ∧
          (v.ready.map some).Perm (some w :: v.rq.getD [])) ∨
        v.Served ∧ v.Idle ∧ ((∃ ops, v.pc = .switching (.exec w) ops) ∨
          v.pc = .schedule (.exec w) ∨ v.pc = .blocked (.exec w)))
  | .freeNode _ => v.Idle ∧ v.Served ∧ v.rq ≠ none ∧ 0 < v.deliveries ∧ v.pc = .user ∧
      v.node ≠ none
  | _ => False

/-- The places of `IOCTL_ENTER_UMS` for a worker that is attached to its completion list. -/
def Pc.inEnter (l : ListId) : Pc → Bool
  | .switching (.enter l') _ | .enterAdd l' => l' = l
  | .schedule .enterWorker | .blocked .enterWorker => true
  | _ => false

/-- A worker in its function, where it is at `IOCTL_UMS_YIELD`. -/
def Pc.inYield : Pc → Bool
  | .user | .yieldParent _ | .yieldPost _ _ | .switching (.yield _) _ | .yieldAdd
  | .schedule .yield | .blocked .yield => true
  | _ => false

/-- A worker at the end of its function, where it is at `IOCTL_EXIT_UMS`. -/
def Pc.inExit : Pc → Bool
  | .user | .exitParent | .exitPost _ | .switching (.exit _) _ | .destroy => true
  | _ => false

/-- A worker: where it is in its ioctl, and that it is attached to the completion list. -/
def WorkAt (P : Program) (v : View) : Stmt → Prop
  | .enterWorker => (v.pc = .user ∧ v.complist = none) ∨
      (v.pc = .enterAttach P.compList ∧ v.complist = some none) ∨
      v.complist = some (some P.compList) ∧ v.pc.inEnter P.compList = true
  | .func (_ + 1) => v.complist = some (some P.compList) ∧ v.pc.inYield = true
  | .func 0 => v.complist = some (some P.compList) ∧ v.pc.inExit = true
  | .done => v.pc = .user ∧ v.complist = none
  | _ => False

/-- Any thread that is no scheduler has not registered as one, has been handed nothing and has no
queue. -/
def View.NoScheduler (v : View) : Prop :=
  v.registered = false ∧ v.batches = [] ∧ v.ready = [] ∧ v.rq = none

/-- The rings of the run queues. -/
def rqRings (q : Pid → Option (List ℕ)) : RqNode → Option (List RqNode)
  | .head t => (q t).map (·.map .node)
  | .node _ => none

/-- The run queues are well formed, and a node is in one queue or in the hands of one thread. -/
structure RqOk (s : App) (q : Pid → Option (List ℕ)) : Prop where
  rings : RingFamily s.rq (rqRings q) (fun _ => none)
  bound : ∀ t ns n, q t = some ns → n ∈ ns → n < s.next
  held : ∀ t n, (s.code t).node = some n → n < s.next ∧ ∀ u ns, q u = some ns → n ∉ ns
  apart : ∀ t u n, (s.code t).node = some n → (s.code u).node = some n → t = u
  owned : ∀ n, s.nodes n ≠ none →
    (∃ t ns, q t = some ns ∧ n ∈ ns) ∨ ∃ t, (s.code t).node = some n

/-- What thread `t` of the program knows at its statement. -/
def ThreadOk (P : Program) (s : App) (q : Pid → Option (List ℕ)) (t : Pid) : Prop :=
  if t ∈ P.schedulers then (s.view q t).complist = none ∧ SchedAt P (s.view q t) (s.code t)
  else (s.view q t).NoScheduler ∧ WorkAt P (s.view q t) (s.code t)

/-- A call that did what it is for, or a wait that a signal ended. -/
def Fine : Obs Pid ListId Event → Prop
  | .ret _ c r => r = .ok ∨ c = .dqcontext ∧ r = .erestartsys
  | _ => True

structure AppInv (P : Program) (s : App) (q : Pid → Option (List ℕ)) : Prop where
  dev : DeviceReachable s.dev
  rq : RqOk s q
  thread : ∀ t, ThreadOk P s q t
  off : ∀ t, t ∉ P.schedulers → t ∉ P.workers → s.code t = .done
  fine : ∀ o ∈ s.dev.hist, Fine o
  fault : s.fault = false

theorem init_code_sched {P : Program} {t : Pid} (ht : t ∈ P.schedulers) :
    (App.init P).code t = .enterSchedulingMode := if_pos ht

theorem init_code_other {P : Program} {t : Pid} (ht : t ∉ P.schedulers) :
    (App.init P).code t = if t ∈ P.workers then .enterWorker else .done := if_neg ht

theorem init_node (P : Program) (t : Pid) : ((App.init P).code t).node = none := by
  by_cases ht : t ∈ P.schedulers
  · rw [init_code_sched ht]
    rfl
  · rw [init_code_other ht]
    split <;> rfl

theorem appInv_init (P : Program) : AppInv P (App.init P) (fun _ => none) := by
  constructor
  case dev => exact .refl
  case rq =>
    have hnode (t : Pid) (n : ℕ) : ((App.init P).code t).node ≠ some n := by
      rw [init_node]
      simp
    have hnone : rqRings (fun _ => none) = fun _ => none := by
      funext n
      cases n <;> rfl
    refine ⟨?_, nofun, fun t n h => absurd h (hnode t n), fun t _ n h => absurd h (hnode t n),
      fun _ h => absurd rfl h⟩
    rw [hnone]
    exact ringFamily_none _
  case thread =>
    intro t
    unfold ThreadOk
    by_cases ht : t ∈ P.schedulers
    · rw [if_pos ht, init_code_sched ht]
      exact ⟨rfl, ⟨rfl, .nil⟩, rfl, rfl, Or.inl ⟨rfl, rfl, rfl⟩⟩
    rw [if_neg ht, init_code_other ht]
    refine ⟨⟨rfl, rfl, rfl, rfl⟩, ?_⟩
    by_cases hw : t ∈ P.workers
    · rw [if_pos hw]
      exact Or.inl ⟨rfl, rfl⟩
    · rw [if_neg hw]
      exact ⟨rfl, rfl⟩
  case off =>
    intro t ht hw
    rw [init_code_other ht, if_neg hw]
  case fine => exact fun o ho => nomatch ho
  case fault => rfl

namespace App

variable {P : Program} {s s' : App} {q : Pid → Option (List ℕ)} {t : Pid}

/-- Nobody else's variables change, and the queues, the nodes and the node in the hands of `t`
stay as they are. -/
structure Kept (s : App) (t : Pid) (s' : App) : Prop where
  rq : s'.rq = s.rq
  nodes : s'.nodes = s.nodes
  next : s'.next = s.next
  fault : s'.fault = s.fault
  code : ∀ u, u ≠ t → s'.code u = s.code u
  event : ∀ u, u ≠ t → s'.event u = s.event u
  args : ∀ u, u ≠ t → s'.args u = s.args u
  context : ∀ u, u ≠ t → s'.context u = s.context u
  node : (s'.code t).node = (s.code t).node

theorem Kept.refl (s : App) (t : Pid) : Kept s t s :=
  ⟨rfl, rfl, rfl, rfl, fun _ _ => rfl, fun _ _ => rfl, fun _ _ => rfl, fun _ _ => rfl, rfl⟩

theorem Kept.trans {s₁ : App} (h : Kept s t s₁) (h' : Kept s₁ t s') : Kept s t s' where
  rq := h'.rq.trans h.rq
  nodes := h'.nodes.trans h.nodes
  next := h'.next.trans h.next
  fault := h'.fault.trans h.fault
  code u hu := (h'.code u hu).trans (h.code u hu)
  event u hu := (h'.event u hu).trans (h.event u hu)
  args u hu := (h'.args u hu).trans (h.args u hu)
  context u hu := (h'.context u hu).trans (h.context u hu)
  node := h'.node.trans h.node

theorem Kept.dev (h : Kept s t s') (d : Device) : Kept s t (s'.setDev d) :=
  ⟨h.rq, h.nodes, h.next, h.fault, h.code, h.event, h.args, h.context, h.node⟩

theorem Kept.goto (s : App) (t : Pid) {c : Stmt} (hc : c.node = (s.code t).node) :
    Kept s t (s.goto t c) where
  rq := rfl
  nodes := rfl
  next := rfl
  fault := rfl
  code u hu := by
    show Function.update s.code t c u = s.code u
    rw [Function.update_of_ne hu]
  event _ _ := rfl
  args _ _ := rfl
  context _ _ := rfl
  node := by
    show ((Function.update s.code t c) t).node = _
    rw [Function.update_self]
    exact hc

theorem Kept.setContext (s : App) (t : Pid) (c : Pid) :
    Kept s t { s with context := Function.update s.context t c } :=
  ⟨rfl, rfl, rfl, rfl, fun _ _ => rfl, fun _ _ => rfl, fun _ _ => rfl,
    fun _ hu => Function.update_of_ne hu c s.context, rfl⟩

theorem Kept.setArgs (s : App) (t : Pid) (c : Pid) :
    Kept s t { s with args := Function.update s.args t c } :=
  ⟨rfl, rfl, rfl, rfl, fun _ _ => rfl, fun _ _ => rfl,
    fun _ hu => Function.update_of_ne hu c s.args, fun _ _ => rfl, rfl⟩

theorem Kept.setEvent (s : App) (t : Pid) (e : Event) :
    Kept s t { s with event := Function.update s.event t e } :=
  ⟨rfl, rfl, rfl, rfl, fun _ _ => rfl, fun _ hu => Function.update_of_ne hu e s.event,
    fun _ _ => rfl, fun _ _ => rfl, rfl⟩

theorem kept_resume (P : Program) (s : App) (t : Pid) (r : Result) :
    Kept s t (s.resume P t r (s.code t)) := by
  generalize hcode : s.code t = c
  -- a statement that makes a call leaves the node in hand as it is
  have hgo {c' : Stmt} (hc' : c'.node = c.node) : Kept s t (s.goto t c') := by
    apply Kept.goto
    rw [hcode, hc']
  have hset (x : Pid) {c' : Stmt} (hc' : c'.node = c.node) :
      Kept s t ({ s with context := Function.update s.context t x }.goto t c') := by
    apply (Kept.setContext s t x).trans
    apply Kept.goto
    show c'.node = (s.code t).node
    rw [hcode, hc']
  cases c with
  | enterSchedulingMode | enterWorker =>
    apply hgo
    rw [apply_ite Stmt.node]
    exact ite_self _
  | dequeueEvent =>
    cases r with
    | ok | enomem | esrch => exact hgo rfl
    | erestartsys => exact .refl s t
  | dequeueItems =>
    cases r with
    | ok => exact hset _ rfl
    | enomem | esrch => exact hgo rfl
    | erestartsys => exact .refl s t
  | nextItem =>
    apply hset
    rw [apply_ite Stmt.node]
    exact ite_self _
  | execute n => exact hgo rfl
  | func k => cases k <;> exact hgo rfl
  | schedEntryProc | addNode | firstEntry | freeNode | done => exact .refl s t

theorem kept_enter (P : Program) (s : App) (t : Pid) (d : Device) : Kept s t (s.enter P t d) := by
  unfold enter
  split
  · exact ((Kept.refl s t).dev d).trans (kept_resume P _ t _)
  · exact (Kept.refl s t).dev d

theorem kept_copyToUser (s : App) (t : Pid) : Kept s t (s.copyToUser t) := by
  unfold copyToUser
  split
  · split
    · exact .refl s t
    · split
      · exact .setArgs s t _
      · exact .refl s t
  · split
    · exact .setArgs s t _
    · exact .setArgs s t _
    · exact .refl s t
  · split
    · exact .setEvent s t _
    · exact .refl s t
  · exact .refl s t

theorem resume_dev (P : Program) (s : App) (t : Pid) (r : Result) (c : Stmt) :
    (s.resume P t r c).dev = s.dev := by
  cases c with
  | dequeueEvent | dequeueItems => cases r <;> rfl
  | func k => cases k <;> rfl
  | _ => rfl

theorem enter_dev (P : Program) (s : App) (t : Pid) (d : Device) : (s.enter P t d).dev = d := by
  unfold enter
  split
  · exact resume_dev P _ t _ _
  · rfl

theorem copyToUser_dev (s : App) (t : Pid) : (s.copyToUser t).dev = s.dev := by
  unfold copyToUser
  repeat' split
  all_goals rfl

theorem copyToUser_code (s : App) (t : Pid) : (s.copyToUser t).code = s.code := by
  unfold copyToUser
  repeat' split
  all_goals rfl

theorem rqOk_keep (h : RqOk s q) (hk : Kept s t s') : RqOk s' q := by
  have hnode (u : Pid) : (s'.code u).node = (s.code u).node := by
    by_cases hu : u = t
    · rw [hu, hk.node]
    · rw [hk.code u hu]
  constructor
  · rw [hk.rq]
    exact h.rings
  · rw [hk.next]
    exact h.bound
  · intro u n hn
    rw [hk.next]
    exact h.held u n ((hnode u).symm.trans hn)
  · intro u v n hu hv
    exact h.apart u v n ((hnode u).symm.trans hu) ((hnode v).symm.trans hv)
  · intro n hn
    rw [hk.nodes] at hn
    simp only [hnode]
    exact h.owned n hn

/-- What the other threads see of themselves. -/
theorem view_other (hd : Device.Own s.dev t s'.dev) {q' : Pid → Option (List ℕ)} {u : Pid}
    (hu : u ≠ t) (hcode : s'.code u = s.code u) (hevent : s'.event u = s.event u)
    (hargs : s'.args u = s.args u) (hcontext : s'.context u = s.context u) (hq : q' u = q u)
    (hrq : ∀ ns n, q u = some ns → n ∈ ns → s'.nodes n = s.nodes n)
    (hnode : ∀ n, (s.code u).node = some n → s'.nodes n = s.nodes n) :
    s'.view q' u = s.view q u := by
  apply View.ext
  · exact hd.pc u hu
  · exact hd.batches u hu
  · exact hd.ready u hu
  · exact hd.scheduler u hu
  · exact hd.complist u hu
  · exact hevent
  · exact hargs
  · exact hcontext
  · show (q' u).map _ = (q u).map _
    rw [hq]
    cases hns : q u with
    | none => rfl
    | some ns =>
      apply congrArg some
      apply List.map_congr_left
      exact fun n hn => hrq ns n hns hn
  · show (s'.code u).node.bind _ = (s.code u).node.bind _
    rw [hcode]
    cases hn : (s.code u).node with
    | none => rfl
    | some n => exact hnode n hn
  · exact congrArg List.length (hd.hist u hu).1
  · exact (hd.hist u hu).2

end App

section Steps

variable {P : Program} {s s' : App} {q q' : Pid → Option (List ℕ)} {t : Pid}

/-- A step of thread `t`, after which the others know what they knew. -/
structure AppStep (P : Program) (s : App) (q : Pid → Option (List ℕ)) (t : Pid) (s' : App)
    (q' : Pid → Option (List ℕ)) : Prop where
  inv : AppInv P s' q'
  dev : Device.Own s.dev t s'.dev
  code : ∀ u, u ≠ t → s'.code u = s.code u
  view : ∀ u, u ≠ t → s'.view q' u = s.view q u

/-- Where a thread is after a statement: inside an ioctl, or at the next statement. -/
inductive Goes (P : Program) : Stmt → Stmt → Pc → Prop where
  | enterSchedulingMode :
      Goes P .enterSchedulingMode .enterSchedulingMode (.schedAttach P.compList)
  | dequeueEvent : Goes P .dequeueEvent .dequeueEvent .evTest
  | refill : Goes P .schedEntryProc .dequeueItems .user
  | schedule : Goes P .schedEntryProc .firstEntry .user
  | dequeueItems : Goes P .dequeueItems .dequeueItems (.dqTest P.compList)
  | addNode : Goes P .addNode .nextItem .user
  | nextItem (c : Pid) : Goes P .nextItem .nextItem (.nextContext c)
  | firstEntry (n : ℕ) : Goes P .firstEntry (.execute n) .user
  | execute (n : ℕ) (w : Pid) :
      Goes P (.execute n) (.execute n) (.switching (.exec w) prepareSwitchContext)
  | freeNode (n : ℕ) : Goes P (.freeNode n) .dequeueEvent .user
  | enterWorker : Goes P .enterWorker .enterWorker (.enterAttach P.compList)
  | yield (k : ℕ) (args : UserPtr) : Goes P (.func (k + 1)) (.func (k + 1)) (.yieldParent args)
  | exit : Goes P (.func 0) (.func 0) .exitParent

def Stmt.executes : Stmt → Bool
  | .execute _ => true
  | _ => false

/-- A statement of `t`. It changes nothing about what is executed and in which order. -/
structure UserStep (P : Program) (s : App) (q : Pid → Option (List ℕ)) (t : Pid) (s' : App)
    (q' : Pid → Option (List ℕ)) : Prop extends AppStep P s q t s' q' where
  own : ∀ r, s'.dispatched q' t r = s.dispatched q t r
  goes : Goes P (s.code t) (s'.code t) (s'.dev.pc t)
  execs : (execsBy t s'.dev.hist).length =
    (execsBy t s.dev.hist).length + if (s.code t).executes then 1 else 0

/-- A step of thread `t` that keeps to its own. -/
theorem AppInv.of_own (hI : AppInv P s q) (hon : t ∈ P.schedulers ∨ t ∈ P.workers)
    (hdev : DeviceReachable s'.dev) (hd : Device.Own s.dev t s'.dev) (hrq : RqOk s' q')
    (hf : s'.fault = false) (hcode : ∀ u, u ≠ t → s'.code u = s.code u)
    (hview : ∀ u, u ≠ t → s'.view q' u = s.view q u) (hfine : ∀ o ∈ s'.dev.hist, Fine o)
    (hself : ThreadOk P s' q' t) : AppStep P s q t s' q' := by
  refine ⟨?_, hd, hcode, hview⟩
  constructor
  case dev => exact hdev
  case rq => exact hrq
  case thread =>
    intro u
    by_cases hut : u = t
    · rw [hut]
      exact hself
    · rw [ThreadOk, hview u hut, hcode u hut]
      exact hI.thread u
  case off =>
    intro u hs hw
    have hut : u ≠ t := by
      rintro rfl
      exact hon.elim hs hw
    rw [hcode u hut]
    exact hI.off u hs hw
  case fine => exact hfine
  case fault => exact hf

/-- A step in which the run queues are not touched. -/
theorem AppInv.keep (hI : AppInv P s q) (hon : t ∈ P.schedulers ∨ t ∈ P.workers)
    (hk : App.Kept s t s') (hdev : DeviceReachable s'.dev) (hd : Device.Own s.dev t s'.dev)
    (hfine : ∀ o ∈ s'.dev.hist, Fine o) (hself : ThreadOk P s' q t) : AppStep P s q t s' q := by
  refine hI.of_own hon hdev hd (App.rqOk_keep hI.rq hk) (hk.fault.trans hI.fault) hk.code ?_ hfine
    hself
  intro u hu
  exact App.view_other hd hu (hk.code u hu) (hk.event u hu) (hk.args u hu) (hk.context u hu) rfl
    (fun _ _ _ _ => by rw [hk.nodes]) (fun _ _ => by rw [hk.nodes])

/-- What the other threads have executed and are going to execute. -/
theorem AppStep.dispatched_other (h : AppStep P s q t s' q') {u : Pid} (hu : u ≠ t) (r : List Pid) :
    s'.dispatched q' u r = s.dispatched q u r := by
  rw [App.dispatched, App.dispatched, h.view u hu, h.code u hu, (h.dev.hist u hu).1]

end Steps

end LinuxUms
