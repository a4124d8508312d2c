import LinuxUms.BatchCalls
import LinuxUms.Effects

/-! Roles and pids. The tables are keyed by pid and know nothing of threads: an entry stays when
its thread exits, and is found for a later thread with the same pid. -/
namespace LinuxUms

open KernelList

/-- `readable` says that the argument of a call can be read, `object` that there is memory for a new
list, worker or scheduler and its directories, `id` that `idr_alloc` succeeds, `event` that there is
memory for an event, and `copied` that the answer of a create or a next can be written. -/
structure IoLuck where
  readable : Bool := true
  object : Bool := true
  id : Bool := true
  event : Bool := true
  copied : Bool := true

namespace IoState

/-- What a call returns that leaves the device as it is. -/
def earlyReturn (s : IoState) (luck : IoLuck) : IoAct → Option Retval
  | .create _ _ =>
    if luck.object = false then some .enomem
    else if luck.copied = false then some .eacces
    -- an error is taken for an id
    else if luck.id = false then some .ok
    else none
  | .delete _ l => if (s.list l).isNone then some .einval else none
  -- the directory of a thread that is registered is there already
  | .enterWorker t _ _ _ =>
    if luck.readable = false then some .eacces
    else if luck.object = false ∨ (s.worker t).isSome then some .enomem
    else none
  | .enterScheduler t l =>
    if luck.readable = false then some .eacces
    else if luck.object = false ∨ (s.scheduler t).isSome then some .enomem
    -- `ums_scheduler_destroy` takes everything back
    else if (s.list l).isSome ∧ luck.event = false then some .enomem
    else none
  | .dqcontext t l _ =>
    if luck.readable = false then some .eacces
    else if (s.list l).isNone then some .einval
    else if (s.scheduler t).isNone then some .esrch
    else none
  | .nextContext _ c =>
    if luck.readable = false then some .eacces
    else if (s.worker c).isNone then some .esrch
    else none
  | .exec t w => if (s.worker w).isNone ∨ (s.scheduler t).isNone then some .esrch else none
  | .yield t _ =>
    if (s.worker t).isNone then some .esrch
    else if luck.event = false then some .enomem
    else none
  | .exit t =>
    match s.worker t with
    | none => some .esrch
    | some w =>
      if luck.event = false then some .enomem
      else if w.context.parent = .null then some .esrch
      else none
  | .dqevent t _ => if (s.scheduler t).isNone then some .esrch else none

/-- What a call returns that has come to its end. -/
def lateReturn (s : IoState) (luck : IoLuck) : IoAct → Retval
  | .enterWorker _ l _ _ | .enterScheduler _ l => if (s.list l).isNone then .einval else .ok
  | .dqcontext _ _ copied | .dqevent _ copied => if copied then .ok else .eacces
  | .nextContext _ _ => if luck.copied then .ok else .eacces
  | _ => .ok

/-- The calls with what they return. -/
def ioctl (s : IoState) (act : IoAct) (luck : IoLuck) : Option (Retval × IoState) :=
  match s.earlyReturn luck act with
  | some r => some (r, s)
  | none => (s.step act).map (s.lateReturn luck act, ·)

end IoState

/-- `thread p` is the thread that has pid `p` now, and `entered` are the threads that have
themselves become worker or scheduler. -/
structure Threads where
  io : IoState
  thread : Pid → Option ℕ
  next : ℕ
  entered : List (Role × ℕ)

inductive ThreadAct where
  | spawn (p : Pid)
  -- a thread exits, or is killed in the call that has suspended it
  | exit (p : Pid)
  | signal (p : Pid)
  | ioctl (act : IoAct) (luck : IoLuck)

namespace Threads

def init : Threads := ⟨.init, fun _ => none, 0, []⟩

/-- Whether a call has made an entry for its caller. -/
def newRole (s s' : IoState) : IoAct → Option Role
  | .enterWorker t _ _ _ =>
    if (s.worker t).isNone ∧ (s'.worker t).isSome then some .worker else none
  | .enterScheduler t _ =>
    if (s.scheduler t).isNone ∧ (s'.scheduler t).isSome then some .scheduler else none
  | _ => none

def step (s : Threads) : ThreadAct → Option Threads
  | .spawn p =>
    if s.thread p = none then
      some { s with thread := Function.update s.thread p (some s.next), next := s.next + 1 }
    else none
  | .exit p =>
    if s.thread p ≠ none then
      some { s with io := s.io.signal p, thread := Function.update s.thread p none }
    else none
  | .signal p => some { s with io := s.io.signal p }
  | .ioctl act luck =>
    match s.thread act.caller with
    | none => none
    | some thread =>
      if s.io.asleep act.caller ≠ none then none
      else
        (s.io.ioctl act luck).map fun (_, io) =>
          { s with
            io := io
            entered := (newRole s.io io act).toList.map (·, thread) ++ s.entered }

/-- No thread gets a pid that is still in a table. -/
def FreshPid (s : Threads) : ThreadAct → Prop
  | .spawn p => s.io.worker p = none ∧ s.io.scheduler p = none
  | _ => True

instance (s : Threads) : DecidablePred (FreshPid s)
  | .spawn p => inferInstanceAs (Decidable (s.io.worker p = none ∧ s.io.scheduler p = none))
  | .exit _ | .signal _ | .ioctl _ _ => inferInstanceAs (Decidable True)

end Threads

namespace IoState

variable {s s' : IoState}

@[simp]
theorem addTail_worker (l : ListId) (c : Pid) : (s.addTail l c).worker = s.worker := by
  unfold addTail
  split <;> rfl

@[simp]
theorem addTail_scheduler (l : ListId) (c : Pid) : (s.addTail l c).scheduler = s.scheduler := by
  unfold addTail
  split <;> rfl

/-- The two tables hold the same pids. -/
def SameKeys (s s' : IoState) : Prop :=
  ∀ p, (s'.worker p = none ↔ s.worker p = none) ∧ (s'.scheduler p = none ↔ s.scheduler p = none)

theorem SameKeys.of_eq (hw : s'.worker = s.worker) (hs : s'.scheduler = s.scheduler) :
    SameKeys s s' := fun p => ⟨by rw [hw], by rw [hs]⟩

theorem sameKeys_exec (t w : Pid) : SameKeys s (s.execUmsContext t w) := by
  unfold execUmsContext
  split
  · rename_i x y hx hy
    exact fun p => ⟨update_none_iff _ w x _ hx p, update_none_iff _ t y _ hy p⟩
  · exact .of_eq rfl rfl

theorem sameKeys_yield (t : Pid) (args : UserPtr) : SameKeys s (s.umsWorkerYield t args) := by
  unfold umsWorkerYield
  split
  · exact .of_eq rfl rfl
  · rename_i p n l hw
    split
    · rename_i y o hy hl
      intro q
      simp only [addTail_worker, addTail_scheduler, notify]
      exact ⟨update_none_iff _ t _ _ hw q, update_none_iff _ p y _ hy q⟩
    · exact .of_eq rfl rfl
  · exact .of_eq rfl rfl

theorem sameKeys_dqevent (t : Pid) (copied : Bool) (h : s.umsSchedDqevent t copied = some s') :
    SameKeys s s' := by
  unfold umsSchedDqevent at h
  split at h
  · obtain rfl := Option.some.inj h
    exact .of_eq rfl rfl
  · cases h
  · rename_i x l e q hs
    obtain rfl := Option.some.inj h
    exact fun p => ⟨Iff.rfl, update_none_iff _ t _ _ hs p⟩

theorem sameKeys_takeBatch (l : ListId) (copied : Bool) : SameKeys s (s.takeBatch l copied) := by
  unfold takeBatch
  split
  · split
    · exact .of_eq rfl rfl
    · split <;> exact .of_eq rfl rfl
  · exact .of_eq rfl rfl

theorem sameKeys_nextContext (c : Pid) : SameKeys s (s.umsComplistNextContext c) := by
  unfold umsComplistNextContext
  split
  · exact .of_eq rfl rfl
  · split <;> exact .of_eq rfl rfl

/-- The end of a worker makes no entry. -/
theorem exit_keys (t p : Pid) :
    (s.worker p = none → (s.umsWorkerEnd t).worker p = none) ∧
      (s.scheduler p = none → (s.umsWorkerEnd t).scheduler p = none) := by
  unfold umsWorkerEnd
  split
  · exact ⟨id, id⟩
  · exact ⟨id, id⟩
  · rename_i q n l hw
    split
    · rename_i y o hy hl
      simp only [putUmsComplist_worker, putUmsComplist_scheduler, notify]
      refine ⟨fun h => ?_, (update_none_iff _ q y _ hy p).mpr⟩
      by_cases hp : p = t
      · simp [hp]
      · rw [Function.update_of_ne hp]
        exact h
    · exact ⟨id, id⟩
  · exact ⟨id, id⟩

/-- Only an enter of the thread itself makes an entry under its pid. -/
theorem step_keys (act : IoAct) (h : s.step act = some s') (p : Pid) :
    (s.worker p = none → (∀ l node zero, act ≠ .enterWorker p l node zero) →
      s'.worker p = none) ∧
    (s.scheduler p = none → (∀ l, act ≠ .enterScheduler p l) → s'.scheduler p = none) := by
  -- all calls but the enters and the exit keep the keys of both tables
  have hsame (hk : SameKeys s s') :
      (s.worker p = none → (∀ l node zero, act ≠ .enterWorker p l node zero) →
        s'.worker p = none) ∧
      (s.scheduler p = none → (∀ l, act ≠ .enterScheduler p l) → s'.scheduler p = none) :=
    ⟨fun h _ => (hk p).1.mpr h, fun h _ => (hk p).2.mpr h⟩
  unfold IoState.step at h
  split at h
  · cases h
  cases act with
  | create t l =>
    simp only at h
    split at h
    · exact hsame (Option.some.inj h ▸ .of_eq rfl rfl)
    · cases h
  | delete t l =>
    obtain rfl := Option.some.inj h
    refine hsame ?_
    unfold umsComplistDelete
    split
    · exact .of_eq rfl rfl
    · exact .of_eq (putUmsComplist_worker _) (putUmsComplist_scheduler _)
  | enterWorker t l node zero =>
    obtain rfl := Option.some.inj h
    unfold enterUmsWorkerMode
    split
    · exact ⟨fun h _ => h, fun h _ => h⟩
    · split
      · exact ⟨fun h _ => h, fun h _ => h⟩
      · simp only [addTail_worker, addTail_scheduler]
        refine ⟨fun h hne => ?_, fun h _ => h⟩
        have hpt : p ≠ t := by
          rintro rfl
          exact hne l node zero rfl
        rw [Function.update_of_ne hpt]
        exact h
  | enterScheduler t l =>
    obtain rfl := Option.some.inj h
    unfold enterUmsSchedulerMode
    split
    · exact ⟨fun h _ => h, fun h _ => h⟩
    · split
      · exact ⟨fun h _ => h, fun h _ => h⟩
      · refine ⟨fun h _ => h, fun h hne => ?_⟩
        have hpt : p ≠ t := by
          rintro rfl
          exact hne l rfl
        simp only [Function.update_of_ne hpt]
        exact h
  | dqcontext t l copied =>
    simp only [umsComplistDqcontext] at h
    split at h
    · exact hsame (Option.some.inj h ▸ .of_eq rfl rfl)
    · split at h
      · cases h
      · exact hsame (Option.some.inj h ▸ sameKeys_takeBatch l copied)
  | nextContext t c => exact hsame (Option.some.inj h ▸ sameKeys_nextContext c)
  | exec t w => exact hsame (Option.some.inj h ▸ sameKeys_exec t w)
  | yield t args => exact hsame (Option.some.inj h ▸ sameKeys_yield t args)
  | exit t =>
    obtain rfl := Option.some.inj h
    exact ⟨fun h _ => (exit_keys t p).1 h, fun h _ => (exit_keys t p).2 h⟩
  | dqevent t copied => exact hsame (sameKeys_dqevent t copied h)

/-- A call either does nothing or takes the step of the device. -/
theorem ioctl_cases (act : IoAct) (luck : IoLuck) (r : Retval)
    (h : s.ioctl act luck = some (r, s')) :
    (s' = s ∧ s.earlyReturn luck act = some r) ∨
      s.earlyReturn luck act = none ∧ s.step act = some s' := by
  unfold ioctl at h
  split at h
  · rename_i r' hearly
    obtain ⟨rfl, rfl⟩ := Prod.mk.inj (Option.some.inj h)
    exact Or.inl ⟨rfl, hearly⟩
  · rename_i hlate
    obtain ⟨x, hx, he⟩ := Option.map_eq_some_iff.mp h
    obtain ⟨-, rfl⟩ := Prod.mk.inj he
    exact Or.inr ⟨hlate, hx⟩

end IoState

namespace Threads

variable {s s' : Threads}

/-- An entry under the pid of a thread was made by this thread. -/
structure Inv (s : Threads) : Prop where
  worker : ∀ p k, s.thread p = some k → (.worker, k) ∉ s.entered → s.io.worker p = none
  scheduler : ∀ p k, s.thread p = some k → (.scheduler, k) ∉ s.entered → s.io.scheduler p = none

theorem inv_init : init.Inv := ⟨by simp [init], by simp [init]⟩

theorem Inv.ioctl (hi : s.Inv) (act : IoAct) (luck : IoLuck)
    (h : s.step (.ioctl act luck) = some s') : s'.Inv := by
  simp only [step] at h
  split at h
  · cases h
  rename_i k hk
  split at h
  · cases h
  obtain ⟨⟨r, io⟩, hio, rfl⟩ := Option.map_eq_some_iff.mp h
  have hkeys (p : Pid) := fun (hne : s.io.step act = some io) => s.io.step_keys act hne p
  have hcases := s.io.ioctl_cases act luck r hio
  constructor
  · intro p j hj hnot
    simp only [List.mem_append, not_or] at hnot
    have hold := hi.worker p j hj hnot.2
    rcases hcases with ⟨rfl, -⟩ | ⟨-, hstep⟩
    · exact hold
    · by_contra hnew
      -- the thread itself has just entered
      have henter : ∃ l node zero, act = .enterWorker p l node zero := by
        by_contra hno
        push Not at hno
        exact hnew ((hkeys p hstep).1 hold hno)
      obtain ⟨l, node, zero, rfl⟩ := henter
      obtain rfl : k = j := Option.some.inj (hk.symm.trans hj)
      refine hnot.1 ?_
      simp [newRole, hold, Option.isSome_iff_ne_none, hnew]
  · intro p j hj hnot
    simp only [List.mem_append, not_or] at hnot
    have hold := hi.scheduler p j hj hnot.2
    rcases hcases with ⟨rfl, -⟩ | ⟨-, hstep⟩
    · exact hold
    · by_contra hnew
      have henter : ∃ l, act = .enterScheduler p l := by
        by_contra hno
        push Not at hno
        exact hnew ((hkeys p hstep).2 hold hno)
      obtain ⟨l, rfl⟩ := henter
      obtain rfl : k = j := Option.some.inj (hk.symm.trans hj)
      refine hnot.1 ?_
      simp [newRole, hold, Option.isSome_iff_ne_none, hnew]

theorem Inv.step (hi : s.Inv) (act : ThreadAct) (hok : FreshPid s act)
    (h : s.step act = some s') : s'.Inv := by
  cases act with
  | spawn p =>
    simp only [Threads.step] at h
    split at h
    · obtain rfl := Option.some.inj h
      constructor
      · intro q k hk hnot
        rcases update_some_cases hk with ⟨rfl, -⟩ | ⟨-, hk⟩
        · exact hok.1
        · exact hi.worker q k hk hnot
      · intro q k hk hnot
        rcases update_some_cases hk with ⟨rfl, -⟩ | ⟨-, hk⟩
        · exact hok.2
        · exact hi.scheduler q k hk hnot
    · cases h
  | exit p =>
    simp only [Threads.step] at h
    split at h
    · obtain rfl := Option.some.inj h
      exact ⟨fun q k hk => hi.worker q k (of_update_none hk).2,
        fun q k hk => hi.scheduler q k (of_update_none hk).2⟩
    · cases h
  | signal p => exact Option.some.inj h ▸ ⟨hi.worker, hi.scheduler⟩
  | ioctl act luck => exact hi.ioctl act luck h

/-- In every run in which no thread gets a pid that is still in a table, the calls of a role
return `-ESRCH` to a thread that has not taken the role itself, and change nothing. A dequeue looks
at its argument and at the list before, and has other errors for them. -/
theorem roles_bound_to_threads (s : Threads)
    (hr : Transition.Reach Threads.step FreshPid Threads.init s) (p : Pid) (k : ℕ)
    (hk : s.thread p = some k) (luck : IoLuck) :
    ((.scheduler, k) ∉ s.entered →
      (∀ copied, s.io.ioctl (.dqevent p copied) luck = some (.esrch, s.io)) ∧
      (∀ w, s.io.ioctl (.exec p w) luck = some (.esrch, s.io)) ∧
      ∀ l copied, ∃ r, s.io.ioctl (.dqcontext p l copied) luck = some (r, s.io) ∧
        (luck.readable = true → s.io.list l ≠ none → r = .esrch)) ∧
    ((.worker, k) ∉ s.entered →
      (∀ args, s.io.ioctl (.yield p args) luck = some (.esrch, s.io)) ∧
      s.io.ioctl (.exit p) luck = some (.esrch, s.io)) := by
  have hi : s.Inv := hr.invariant Inv inv_init (fun _ act _ hi hok h => hi.step act hok h)
  constructor
  · intro hnot
    have hs := hi.scheduler p k hk hnot
    refine ⟨fun copied => ?_, fun w => ?_, fun l copied => ?_⟩
    · simp [IoState.ioctl, IoState.earlyReturn, hs]
    · simp [IoState.ioctl, IoState.earlyReturn, hs]
    · by_cases hread : luck.readable = false
      · exact ⟨.eacces, by simp [IoState.ioctl, IoState.earlyReturn, hread], by simp [hread]⟩
      · cases hl : s.io.list l with
        | none => exact ⟨.einval, by simp [IoState.ioctl, IoState.earlyReturn, hread, hl], by simp⟩
        | some o =>
          exact ⟨.esrch, by simp [IoState.ioctl, IoState.earlyReturn, hread, hl, hs],
            fun _ _ => rfl⟩
  · intro hnot
    have hw := hi.worker p k hk hnot
    exact ⟨fun args => by simp [IoState.ioctl, IoState.earlyReturn, hw],
      by simp [IoState.ioctl, IoState.earlyReturn, hw]⟩

/-- Thread 0 enters as scheduler with pid 10, and thread 1 with pid 11 has no role. -/
theorem roles_bound_to_threads_other :
    ∃ s, Transition.Reach Threads.step FreshPid Threads.init s ∧
      (s.thread 11 = some 1 ∧ (.scheduler, 1) ∉ s.entered ∧ (s.io.list 1).isSome = true) ∧
      s.io.ioctl (.dqevent 11 true) {} = some (.esrch, s.io) ∧
      s.io.ioctl (.dqcontext 11 1 true) {} = some (.esrch, s.io) := by
  obtain ⟨s, hr, hs⟩ := Transition.Reach.exists_of_run Threads.step FreshPid Threads.init
    [.spawn 10, .spawn 11, .ioctl (.create 10 1) {}, .ioctl (.enterScheduler 10 1) {}]
    (fun s => s.thread 11 = some 1 ∧ (.scheduler, 1) ∉ s.entered ∧
      (s.io.list 1).isSome = true) (by decide +kernel)
  obtain ⟨hevent, -, hdq⟩ := (roles_bound_to_threads s hr 11 1 hs.1 {}).1 hs.2.1
  obtain ⟨r, hr', hesrch⟩ := hdq 1 true
  obtain rfl := hesrch rfl (by simpa [Option.isSome_iff_ne_none] using hs.2.2)
  exact ⟨s, hr, hs, hevent true, hr'⟩

/-- Thread 0 enters as scheduler and exits, and its entry stays. Thread 1 gets the pid, never
enters, and takes an event out of the queue of thread 0. -/
theorem recycled_pid_takes_event :
    ∃ s, Transition.Reach Threads.step (fun _ _ => True) Threads.init s ∧
      s.thread 10 = some 1 ∧ (.scheduler, 1) ∉ s.entered ∧
      (s.io.scheduler 10).map Scheduler.eventQ = some [.schedulerStartup] ∧
      (s.io.ioctl (.dqevent 10 true) {}).map (fun x => (x.1, (x.2.scheduler 10).map
        Scheduler.eventQ)) = some (.ok, some []) :=
  Transition.Reach.exists_of_run Threads.step (fun _ _ => True) Threads.init
    [.spawn 10, .ioctl (.create 10 1) {}, .ioctl (.enterScheduler 10 1) {}, .exit 10, .spawn 10]
    _ (by decide +kernel)

end Threads

end LinuxUms
