import LinuxUms.Identity

/-! The threads of `ums_pthread_create`, from `worker_wrapper_routine` to the destructor of
`worker_key` that tells the device about their end. -/
namespace LinuxUms

open KernelList

/-- How far a thread is in `worker_wrapper_routine`. -/
inductive Routine where
  -- before `pthread_once`
  | started
  -- before `enter_ums_mode`
  | keyed
  -- suspended in `enter_ums_mode`, or back from it
  | entered
  -- in the function of the user
  | running
  deriving DecidableEq

/-- `specific` says that the thread's value for `worker_key` is its argument, and not `NULL`. -/
structure UmsThread where
  routine : Routine
  completionList : ListId
  specific : Bool
  deriving DecidableEq

/-- A process with the library and an open device. `workerKey` is what `pthread_key_create` has
said, once it was called, and `executedBy w` is the scheduler that has executed `w` last. -/
structure Process where
  io : IoState
  workerKey : Option Bool
  thread : Pid → Option UmsThread
  executedBy : Pid → Option Pid

inductive ProcessAct where
  | umsPthreadCreate (p : Pid) (l : ListId) (malloc : Bool)
  | pthreadOnce (p : Pid) (created : Bool)
  -- `enter_ums_mode`; `alloc` says that there is memory for the worker
  | enterUmsMode (p : Pid) (node : Links Node) (zero alloc : Bool)
  | pthreadSetspecific (p : Pid) (stored : Bool)
  -- the function returns or calls `pthread_exit`; `event` is for the event of `ums_worker_end`
  | finish (p : Pid) (event : Bool)
  -- a call of a function that runs, or of a thread that is not from `ums_pthread_create`
  | ioctl (act : IoAct) (luck : IoLuck)
  | signal (t : Pid)

/-- The schedulers that have executed the workers last, after a call. -/
def IoState.noteExec (s : IoState) (executedBy : Pid → Option Pid) : IoAct → Pid → Option Pid
  | .exec t w =>
    if (s.worker w).isSome ∧ (s.scheduler t).isSome then Function.update executedBy w (some t)
    else executedBy
  | _ => executedBy

namespace Process

def init : Process := ⟨.init, none, fun _ => none, fun _ => none⟩

/-- `destroy_worker_key`, which discards what `exit_ums_mode` returns. -/
def destroyWorkerKey (io : IoState) (p : Pid) (event : Bool) : Option IoState :=
  (io.ioctl (.exit p) { event := event }).map Prod.snd

/-- Functions run between `pthread_setspecific` and the destructor, and the library makes the exit
call for them. -/
def mayCall (s : Process) (act : IoAct) : Bool :=
  match s.thread act.caller, act with
  | none, _ => true
  | some _, .exit _ => false
  | some x, _ => x.routine = .running

def step (s : Process) : ProcessAct → Option Process
  | .umsPthreadCreate p l malloc =>
    if malloc = false then some s
    else if s.thread p = none ∧ s.io.asleep p = none then
      some { s with thread := Function.update s.thread p (some ⟨.started, l, false⟩) }
    else none
  | .pthreadOnce p created =>
    match s.thread p with
    | some ⟨.started, l, v⟩ =>
      some { s with
        workerKey := some (s.workerKey.getD created)
        thread := Function.update s.thread p (some ⟨.keyed, l, v⟩) }
    | _ => none
  | .enterUmsMode p node zero alloc =>
    match s.thread p with
    | some ⟨.keyed, l, v⟩ =>
      if alloc = false ∨ (s.io.worker p).isSome then
        -- the routine returns, with no value for the key
        some { s with thread := Function.update s.thread p none }
      else
        (s.io.step (.enterWorker p l node zero)).map fun io =>
          { s with io := io, thread := Function.update s.thread p (some ⟨.entered, l, v⟩) }
    | _ => none
  | .pthreadSetspecific p stored =>
    match s.thread p with
    | some ⟨.entered, l, _⟩ =>
      if s.io.asleep p ≠ none then none
      else
        some { s with
          thread := Function.update s.thread p
            (some ⟨.running, l, s.workerKey = some true ∧ stored = true⟩) }
    | _ => none
  | .finish p event =>
    match s.thread p with
    | some ⟨.running, _, v⟩ =>
      if s.io.asleep p ≠ none then none
      else
        (if v then destroyWorkerKey s.io p event else some s.io).map fun io =>
          { s with io := io, thread := Function.update s.thread p none }
    | _ => none
  | .ioctl act luck =>
    if s.mayCall act = true ∧ s.io.asleep act.caller = none then
      (s.io.ioctl act luck).map fun (_, io) =>
        { s with io := io, executedBy := s.io.noteExec s.executedBy act }
    else none
  | .signal t => some { s with io := s.io.signal t }

/-- Calls keep to the protocol of the module, and no signal reaches a thread that its call has
suspended. -/
def Documented (s : Process) : ProcessAct → Prop
  | .enterUmsMode p node zero _ =>
    ∀ x ∈ s.thread p, Guarded s.io (.enterWorker p x.completionList node zero)
  | .ioctl act _ => Guarded s.io act
  | .signal t => s.io.asleep t = none
  | _ => True

/-- The key is created and set, and there is memory for the last event. -/
def Supplied : ProcessAct → Prop
  | .pthreadOnce _ created => created = true
  | .pthreadSetspecific _ stored => stored = true
  | .finish _ event => event = true
  | _ => True

instance (s : Process) : DecidablePred (Documented s)
  | .enterUmsMode p node zero _ => inferInstanceAs (Decidable
      (∀ x ∈ s.thread p, Guarded s.io (.enterWorker p x.completionList node zero)))
  | .ioctl act _ => inferInstanceAs (Decidable (Guarded s.io act))
  | .signal t => inferInstanceAs (Decidable (s.io.asleep t = none))
  | .umsPthreadCreate _ _ _ | .pthreadOnce _ _ | .pthreadSetspecific _ _ | .finish _ _ =>
    inferInstanceAs (Decidable True)

instance : DecidablePred Supplied
  | .pthreadOnce _ created => inferInstanceAs (Decidable (created = true))
  | .pthreadSetspecific _ stored => inferInstanceAs (Decidable (stored = true))
  | .finish _ event => inferInstanceAs (Decidable (event = true))
  | .umsPthreadCreate _ _ _ | .enterUmsMode _ _ _ _ | .ioctl _ _ | .signal _ =>
    inferInstanceAs (Decidable True)

end Process

namespace IoState

variable {s s' : IoState}

/-- How many events of the end of `p` wait in the queue of scheduler `q`. -/
def terminations (s : IoState) (q p : Pid) : ℕ :=
  ((s.scheduler q).map fun y => y.eventQ.count (.threadTerminated p)).getD 0

/-- A registered worker stays attached to its list until it ends. -/
theorem Effect.complist {act : IoAct} (h : Effect s act s') (p : Pid) (w : Worker)
    (hw : s.worker p = some w) (hexit : act ≠ .exit p) :
    ∃ w', s'.worker p = some w' ∧ w'.complist = w.complist := by
  cases h with
  | deleted t l o hl ho => exact ⟨w, by simpa using hw, rfl⟩
  | enteredWorker t l node zero o q heap hnone hl hq =>
    have hpt : p ≠ t := by
      rintro rfl
      rw [hw] at hnone
      cases hnone
    exact ⟨w, by simpa [queued, Function.update_of_ne hpt] using hw, rfl⟩
  | executed t u x y hx hidle hr hy =>
    by_cases hpu : p = u
    · subst hpu
      obtain rfl : x = w := Option.some.inj (hx.symm.trans hw)
      exact ⟨_, Function.update_self .., rfl⟩
    · exact ⟨w, by simpa [Function.update_of_ne hpu] using hw, rfl⟩
  | yielded t args r n l y o q heap hv hp hy hl hq hr =>
    by_cases hpt : p = t
    · subst hpt
      obtain rfl := Option.some.inj (hv.symm.trans hw)
      exact ⟨_, Function.update_self .., rfl⟩
    · exact ⟨w, by simpa [queued, notify, Function.update_of_ne hpt] using hw, rfl⟩
  | exited t r n l y o hv hp hy hl hr =>
    have hpt : p ≠ t := by
      rintro rfl
      exact hexit rfl
    exact ⟨w, by simpa [Function.update_of_ne hpt] using hw, rfl⟩
  | _ => exact ⟨w, hw, rfl⟩

theorem Effect.entered {p : Pid} {l : ListId} {node : Links Node} {zero : Bool}
    (h : Effect s (.enterWorker p l node zero) s') (hw : s.worker p = none) :
    ∃ w, s'.worker p = some w ∧ w.complist = some l := by
  cases h with
  | reenteredWorker _ _ _ _ hne => exact absurd hw hne
  | enteredWorker _ _ _ _ o q heap _ hl hq => exact ⟨_, Function.update_self .., rfl⟩

/-- A call that returns early notes nothing. -/
theorem ioctl_noteExec (act : IoAct) (luck : IoLuck) (f : Pid → Option Pid) (r : Retval)
    (h : s.ioctl act luck = some (r, s')) :
    (s' = s ∧ s.noteExec f act = f) ∨ s.step act = some s' := by
  rcases s.ioctl_cases act luck r h with ⟨rfl, hearly⟩ | ⟨-, hstep⟩
  · refine Or.inl ⟨rfl, ?_⟩
    cases act with
    | exec t w =>
      refine if_neg fun hboth => ?_
      simp [earlyReturn, ← Option.not_isSome, hboth] at hearly
    | _ => rfl
  · exact Or.inr hstep

/-- A worker gets its parent by being executed. -/
theorem Effect.parent {act : IoAct} (h : Effect s act s') (f : Pid → Option Pid)
    (hf : ∀ p w q, s.worker p = some w → w.context.parent = .context q → f p = some q)
    (p : Pid) (w : Worker) (q : Pid) (hw : s'.worker p = some w)
    (hq : w.context.parent = .context q) : s.noteExec f act p = some q := by
  cases h with
  | deleted t l o hl ho => exact hf p w q (by simpa using hw) hq
  | enteredWorker t l node zero o k heap hnone hl hk =>
    rcases update_some_cases hw with ⟨-, rfl⟩ | ⟨-, hold⟩
    · cases zero <;> simp at hq
    · exact hf p w q hold hq
  | execRefused t u hno =>
    have hsame : s.noteExec f (.exec t u) = f := by
      rcases hno with hno | hno <;> simp [noteExec, hno]
    rw [hsame]
    exact hf p w q hw hq
  | executed t u x y hx hidle hr hy =>
    have hnote : s.noteExec f (.exec t u) = Function.update f u (some t) := by
      simp [noteExec, hx, hy]
    rw [hnote]
    rcases update_some_cases hw with ⟨rfl, rfl⟩ | ⟨hpu, hold⟩
    · rw [Function.update_self, Parent.context.inj hq]
    · rw [Function.update_of_ne hpu]
      exact hf p w q hold hq
  | yielded t args r n l y o k heap hv hp hy hl hk hr =>
    rcases update_some_cases hw with ⟨rfl, rfl⟩ | ⟨-, hold⟩
    · exact hf p _ q hv hq
    · exact hf p w q hold hq
  | exited t r n l y o hv hp hy hl hr =>
    simp only [putUmsComplist_worker] at hw
    exact hf p w q (of_update_none hw).2 hq
  | _ => exact hf p w q hw hq

/-- An event of the end of a worker is posted by its exit call. -/
theorem Effect.terminations_le {act : IoAct} (h : Effect s act s') (p : Pid)
    (hexit : act ≠ .exit p) (q : Pid) : s'.terminations q p ≤ s.terminations q p := by
  cases h with
  | deleted t l o hl ho => simp [terminations]
  | enteredScheduler t l o hs hl =>
    by_cases hqt : q = t
    · simp [terminations, hqt, hs, enqueueUmsSchedEvent, eventAddTail, eventAddHead]
    · simp [terminations, Function.update_of_ne hqt]
  | executed t u x y hx hidle hr hy =>
    by_cases hqt : q = t
    · simp [terminations, hqt, hy]
    · simp [terminations, Function.update_of_ne hqt]
  | yielded t args r n l y o k heap hv hp hy hl hk hr =>
    by_cases hqr : q = r
    · simp [terminations, queued, notify, hqr, hy, enqueueUmsSchedEvent, eventAddTail,
        eventAddHead]
    · simp [terminations, queued, notify, Function.update_of_ne hqr]
  | exited t r n l y o hv hp hy hl hr =>
    have htp : t ≠ p := by
      rintro rfl
      exact hexit rfl
    by_cases hqr : q = r
    · simp [terminations, notify, hqr, hy, enqueueUmsSchedEvent, eventAddTail, eventAddHead, htp]
    · simp [terminations, notify, Function.update_of_ne hqr]
  | event t copied x l e k hs =>
    by_cases hqt : q = t
    · cases copied <;>
        simp [terminations, hqt, hs, enqueueUmsSchedEvent, eventAddHead, List.count_cons]
    · simp [terminations, Function.update_of_ne hqt]
  | _ => exact Nat.le_refl _

/-- What the end of worker `p` does for scheduler `q` and for the list `l` of the worker. -/
structure GivesBack (s s' : IoState) (p q : Pid) (l : ListId) : Prop where
  posted : ∃ y, s.scheduler q = some y ∧
    (s'.scheduler q).map Scheduler.eventQ = some (y.eventQ ++ [.threadTerminated p])
  others : ∀ r, r ≠ q → s'.scheduler r = s.scheduler r
  woken : s'.asleep = Function.update s.asleep q none
  removed : s'.worker = Function.update s.worker p none
  dropped : ∃ o, s.list l = some o ∧ .worker p ∈ o.holders ∧
    s'.list = putList s.list l { o with holders := o.holders.erase (.worker p) }

/-- The exit call of a worker that runs. -/
theorem Inv.givesBack (hi : s.Inv) (p : Pid) (w : Worker) (hw : s.worker p = some w)
    (ha : s.asleep p = none) (l : ListId) (hl : w.complist = some l) (event : Bool)
    (hevent : event = true) :
    ∃ q s', w.context.parent = .context q ∧
      s.ioctl (.exit p) { event := event } = some (.ok, s') ∧ GivesBack s s' p q l := by
  obtain ⟨q, n, l', y, o, rfl, -, hy, ho, -⟩ := hi.caller ha w hw
  obtain rfl : l' = l := Option.some.inj hl
  obtain ⟨l'', o', hl'', ho', hmem⟩ := hi.holders.holder p _ hw
  obtain rfl : l' = l'' := Option.some.inj hl''
  obtain rfl : o = o' := Option.some.inj (ho.symm.trans ho')
  have hstep : s.step (.exit p) = some (s.umsWorkerEnd p) := by
    simp [IoState.step, IoAct.caller, ha]
  refine ⟨q, s.umsWorkerEnd p, rfl, by simp [ioctl, earlyReturn, lateReturn, hw, hevent, hstep], ?_⟩
  have hend : s.umsWorkerEnd p = { s.notify q y (.threadTerminated p) y.context.parent with
      worker := Function.update s.worker p none }.putUmsComplist l'
        { o with holders := o.holders.erase (.worker p) } := by
    simp only [umsWorkerEnd, hw, hy, ho]
  rw [hend]
  refine ⟨⟨y, hy, ?_⟩, fun r hr => ?_, ?_, ?_, ⟨o, ho, hmem, ?_⟩⟩
  · simp [notify, enqueueUmsSchedEvent, eventAddTail, eventAddHead]
  · simp [notify, Function.update_of_ne hr]
  · simp [notify]
  · simp
  · rw [putUmsComplist_list]
    rfl

end IoState

namespace Process

variable {s s' : Process}

structure Inv (s : Process) : Prop where
  io : s.io.Inv
  created : s.workerKey ≠ some false
  keyed : ∀ p x, s.thread p = some x → x.routine ≠ .started → s.workerKey = some true
  registered : ∀ p x, s.thread p = some x → x.routine = .entered ∨ x.routine = .running →
    ∃ w, s.io.worker p = some w ∧ w.complist = some x.completionList
  specific : ∀ p x, s.thread p = some x → x.routine = .running → x.specific = true
  parent : ∀ p w q, s.io.worker p = some w → w.context.parent = .context q →
    s.executedBy p = some q

theorem inv_init : init.Inv where
  io := IoState.inv_init
  created := by simp [init]
  keyed := by simp [init]
  registered := by simp [init]
  specific := by simp [init]
  parent := by simp [init, IoState.init]

/-- A thread moves on in the library. -/
theorem Inv.setThread (hi : s.Inv) (p : Pid) (x : UmsThread)
    (hkeyed : x.routine ≠ .started → s.workerKey = some true)
    (hreg : x.routine = .entered ∨ x.routine = .running →
      ∃ w, s.io.worker p = some w ∧ w.complist = some x.completionList)
    (hspec : x.routine = .running → x.specific = true) :
    Inv { s with thread := Function.update s.thread p (some x) } where
  io := hi.io
  created := hi.created
  keyed q y hy hne := by
    rcases update_some_cases hy with ⟨-, rfl⟩ | ⟨-, hy⟩
    · exact hkeyed hne
    · exact hi.keyed q y hy hne
  registered q y hy hr := by
    rcases update_some_cases hy with ⟨rfl, rfl⟩ | ⟨-, hy⟩
    · exact hreg hr
    · exact hi.registered q y hy hr
  specific q y hy hr := by
    rcases update_some_cases hy with ⟨rfl, rfl⟩ | ⟨-, hy⟩
    · exact hspec hr
    · exact hi.specific q y hy hr
  parent := hi.parent

theorem Inv.dropThread (hi : s.Inv) (p : Pid) :
    Inv { s with thread := Function.update s.thread p none } where
  io := hi.io
  created := hi.created
  keyed q y hy := hi.keyed q y (of_update_none hy).2
  registered q y hy := hi.registered q y (of_update_none hy).2
  specific q y hy := hi.specific q y (of_update_none hy).2
  parent := hi.parent

/-- A call that is not the exit call of a thread of the library. -/
theorem Inv.setIo (hi : s.Inv) (act : IoAct) (io : IoState) (hok : Guarded s.io act)
    (h : s.io.step act = some io) (hexit : ∀ p, s.thread p ≠ none → act ≠ .exit p) :
    Inv { s with io := io, executedBy := s.io.noteExec s.executedBy act } where
  io := hi.io.step act hok io h
  created := hi.created
  keyed := hi.keyed
  registered p x hx hr := by
    obtain ⟨w, hw, hl⟩ := hi.registered p x hx hr
    have hne : act ≠ .exit p := hexit p (Option.ne_none_iff_exists'.mpr ⟨x, hx⟩)
    obtain ⟨w', hw', hl'⟩ := (hi.io.effect act hok io h).2.complist p w hw hne
    exact ⟨w', hw', hl'.trans hl⟩
  specific := hi.specific
  parent := (hi.io.effect act hok io h).2.parent s.executedBy hi.parent

theorem mayCall_exit {act : IoAct} (h : s.mayCall act = true) (p : Pid) (hp : s.thread p ≠ none) :
    act ≠ .exit p := by
  rintro rfl
  obtain ⟨x, hx⟩ := Option.ne_none_iff_exists'.mp hp
  simp [mayCall, IoAct.caller, hx] at h

theorem Inv.step (hi : s.Inv) (act : ProcessAct) (hok : Documented s act ∧ Supplied act)
    (h : s.step act = some s') : s'.Inv := by
  cases act with
  | umsPthreadCreate p l malloc =>
    simp only [Process.step] at h
    split at h
    · exact Option.some.inj h ▸ hi
    split at h
    · obtain rfl := Option.some.inj h
      exact hi.setThread p _ (by simp) (by simp) (by simp)
    · cases h
  | pthreadOnce p created =>
    simp only [Process.step] at h
    split at h
    · rename_i l v hx
      obtain rfl := Option.some.inj h
      have hcreated : created = true := hok.2
      -- `pthread_once`: the first caller creates the key, the others find it
      have hkey : s.workerKey.getD created = true := by
        cases hk : s.workerKey with
        | none => simpa using hcreated
        | some b =>
          cases b with
          | false => exact absurd hk hi.created
          | true => rfl
      have hset : Inv { s with workerKey := some true } :=
        ⟨hi.io, by simp, fun _ _ _ _ => rfl, hi.registered, hi.specific, hi.parent⟩
      rw [hkey]
      exact hset.setThread p _ (fun _ => rfl) (by simp) (by simp)
    · cases h
  | enterUmsMode p node zero alloc =>
    simp only [Process.step] at h
    split at h
    · rename_i l v hx
      have hguard : Guarded s.io (.enterWorker p l node zero) := hok.1 _ hx
      split at h
      · -- the enter fails, and the routine returns before it has set the key
        exact Option.some.inj h ▸ hi.dropThread p
      · rename_i hnew
        obtain ⟨io, hio, rfl⟩ := Option.map_eq_some_iff.mp h
        have hset := hi.setIo _ io hguard hio (by simp)
        refine hset.setThread p _ (fun _ => ?_) (fun _ => ?_) (by simp)
        · exact hi.keyed p _ hx (by simp)
        · simp only [not_or, Option.not_isSome_iff_eq_none] at hnew
          exact (hi.io.effect _ hguard io hio).2.entered hnew.2
    · cases h
  | pthreadSetspecific p stored =>
    simp only [Process.step] at h
    split at h
    · rename_i l v hx
      split at h
      · cases h
      obtain rfl := Option.some.inj h
      have hkey := hi.keyed p _ hx (by simp)
      have hstored : stored = true := hok.2
      have hreg := hi.registered p _ hx (Or.inl rfl)
      exact hi.setThread p _ (fun _ => hkey) (fun _ => hreg) (fun _ => by simp [hkey, hstored])
    · cases h
  | finish p event =>
    simp only [Process.step] at h
    split at h
    · rename_i l v hx
      split at h
      · cases h
      obtain ⟨io, hio, rfl⟩ := Option.map_eq_some_iff.mp h
      -- the value is set, so the destructor runs and makes the exit call
      obtain rfl : v = true := hi.specific p _ hx rfl
      obtain ⟨⟨r, io'⟩, hexit, rfl⟩ := Option.map_eq_some_iff.mp hio
      have hdrop := hi.dropThread p
      rcases s.io.ioctl_cases _ _ r hexit with ⟨rfl, -⟩ | ⟨-, hstep⟩
      · exact hdrop
      · refine hdrop.setIo (.exit p) io' trivial hstep fun q hq he => hq ?_
        obtain rfl : p = q := IoAct.exit.inj he
        exact Function.update_self ..
    · cases h
  | ioctl act luck =>
    simp only [Process.step] at h
    split at h
    · rename_i hcall
      obtain ⟨⟨r, io⟩, hio, rfl⟩ := Option.map_eq_some_iff.mp h
      rcases s.io.ioctl_noteExec act luck s.executedBy r hio with ⟨rfl, hnote⟩ | hstep
      · rw [hnote]
        exact hi
      · exact hi.setIo act io hok.1 hstep fun p hp => mayCall_exit hcall.1 p hp
    · cases h
  | signal t =>
    obtain rfl := Option.some.inj h
    rw [IoState.signal_of_awake hok.1]
    exact hi

/-- The device takes at most one step, and only the end of a thread of the library makes its exit
call. -/
theorem io_step (act : ProcessAct) (hok : Documented s act) (h : s.step act = some s') :
    s'.io = s.io ∨ ∃ a, Guarded s.io a ∧ s.io.step a = some s'.io ∧
      ∀ p, s.thread p ≠ none → (∀ event, act ≠ .finish p event) → a ≠ .exit p := by
  cases act with
  | umsPthreadCreate p l malloc =>
    simp only [Process.step] at h
    split at h
    · exact Or.inl (Option.some.inj h ▸ rfl)
    split at h
    · exact Or.inl (Option.some.inj h ▸ rfl)
    · cases h
  | pthreadOnce p created =>
    simp only [Process.step] at h
    split at h
    · exact Or.inl (Option.some.inj h ▸ rfl)
    · cases h
  | enterUmsMode p node zero alloc =>
    simp only [Process.step] at h
    split at h
    · rename_i l v hx
      split at h
      · exact Or.inl (Option.some.inj h ▸ rfl)
      · obtain ⟨io, hio, rfl⟩ := Option.map_eq_some_iff.mp h
        exact Or.inr ⟨_, hok _ hx, hio, by simp⟩
    · cases h
  | pthreadSetspecific p stored =>
    simp only [Process.step] at h
    split at h
    · split at h
      · cases h
      · exact Or.inl (Option.some.inj h ▸ rfl)
    · cases h
  | finish p event =>
    simp only [Process.step] at h
    split at h
    · split at h
      · cases h
      obtain ⟨io, hio, rfl⟩ := Option.map_eq_some_iff.mp h
      split at hio
      · obtain ⟨⟨r, io'⟩, hexit, rfl⟩ := Option.map_eq_some_iff.mp hio
        refine (s.io.ioctl_cases _ _ r hexit).imp And.left fun ⟨_, hstep⟩ => ?_
        refine ⟨.exit p, trivial, hstep, fun q _ hq he => hq event ?_⟩
        rw [IoAct.exit.inj he]
      · exact Or.inl (Option.some.inj hio).symm
    · cases h
  | ioctl act luck =>
    simp only [Process.step] at h
    split at h
    · rename_i hcall
      obtain ⟨⟨r, io⟩, hio, rfl⟩ := Option.map_eq_some_iff.mp h
      exact (s.io.ioctl_cases act luck r hio).imp And.left fun ⟨_, hstep⟩ =>
        ⟨act, hok, hstep, fun p hp _ => mayCall_exit hcall.1 p hp⟩
    · cases h
  | signal t =>
    obtain rfl := Option.some.inj h
    exact Or.inl (IoState.signal_of_awake hok)

/-- The scheduler that has executed a running thread last waits for it. -/
theorem Inv.waiting (hi : s.Inv) (p : Pid) (x : UmsThread) (hx : s.thread p = some x)
    (hrun : x.routine = .running) (ha : s.io.asleep p = none) :
    ∃ q, s.executedBy p = some q ∧ s.io.asleep q = some (.exec p) := by
  obtain ⟨w, hw, -⟩ := hi.registered p x hx (Or.inr hrun)
  obtain ⟨q, n, l, y, o, rfl, hwait, -⟩ := hi.io.caller ha w hw
  exact ⟨q, hi.parent p _ q hw rfl, hwait⟩

/-- In every run in which the key is created and set, the exit calls get their event and no signal
ends a suspension, a thread of `ums_pthread_create` whose function ends gives its scheduler back:
the end posts one event with its pid to the scheduler that has executed it last, and while the
thread lives nothing else posts such an event. -/
theorem termination_gives_back (s : Process)
    (hr : Transition.Reach Process.step (fun s act => Documented s act ∧ Supplied act) init s)
    (p : Pid) (x : UmsThread) (hx : s.thread p = some x) :
    (x.routine = .running → s.io.asleep p = none →
      ∃ s' q, s.step (.finish p true) = some s' ∧ s'.thread p = none ∧
        s.executedBy p = some q ∧ s.io.GivesBack s'.io p q x.completionList) ∧
    ∀ act s', Documented s act → s.step act = some s' → (∀ event, act ≠ .finish p event) →
      ∀ q, s'.io.terminations q p ≤ s.io.terminations q p := by
  have hi : s.Inv := hr.invariant Inv inv_init (fun _ act _ hi hok h => hi.step act hok h)
  constructor
  · intro hrun ha
    obtain ⟨w, hw, hl⟩ := hi.registered p x hx (Or.inr hrun)
    have hv := hi.specific p x hx hrun
    obtain ⟨q, io, hq, hexit, hback⟩ := hi.io.givesBack p w hw ha _ hl true rfl
    obtain ⟨routine, l, v⟩ := x
    obtain rfl : routine = .running := hrun
    obtain rfl : v = true := hv
    refine ⟨{ s with io := io, thread := Function.update s.thread p none }, q, ?_,
      Function.update_self .., hi.parent p w q hw hq, hback⟩
    simp [Process.step, hx, ha, destroyWorkerKey, hexit]
  · intro act s' hok h hne q
    rcases io_step act hok h with hio | ⟨a, hguard, hstep, hexit⟩
    · rw [hio]
    · have hthread : s.thread p ≠ none := Option.ne_none_iff_exists'.mpr ⟨x, hx⟩
      have heff := (hi.io.effect a hguard _ hstep).2
      exact heff.terminations_le p (hexit p hthread hne) q

/-- Scheduler 10 executes the thread with pid 1, which sets its key. -/
def executedOnce (created : Bool) : List ProcessAct :=
  [.ioctl (.create 10 1) {}, .ioctl (.enterScheduler 10 1) {}, .ioctl (.dqevent 10 true) {},
    .umsPthreadCreate 1 1 true, .pthreadOnce 1 created,
    .enterUmsMode 1 ⟨.null, .null⟩ true true, .ioctl (.dqcontext 10 1 true) {},
    .ioctl (.exec 10 1) {}, .pthreadSetspecific 1 true]

theorem termination_gives_back_one :
    ∃ s, Transition.Reach Process.step (fun s act => Documented s act ∧ Supplied act) init s ∧
      (s.thread 1 = some ⟨.running, 1, true⟩ ∧ s.io.asleep 1 = none ∧ s.executedBy 1 = some 10) ∧
      ∃ s', s.step (.finish 1 true) = some s' ∧ s.io.GivesBack s'.io 1 10 1 := by
  obtain ⟨s, hr, hs⟩ := Transition.Reach.exists_of_run Process.step
    (fun s act => Documented s act ∧ Supplied act) init (executedOnce true)
    (fun s => s.thread 1 = some ⟨.running, 1, true⟩ ∧ s.io.asleep 1 = none ∧
      s.executedBy 1 = some 10) (by decide +kernel)
  obtain ⟨s', q, hstep, -, hq, hback⟩ :=
    (termination_gives_back s hr 1 _ hs.1).1 rfl hs.2.1
  obtain rfl : q = 10 := Option.some.inj (hq.symm.trans hs.2.2)
  exact ⟨s, hr, hs, s', hstep, hback⟩

/-- Thread `p` is gone, and scheduler `q` still waits for it, with no event to come back to. -/
def Stranded (s : Process) (p q : Pid) : Prop :=
  s.thread p = none ∧ (s.io.worker p).isSome = true ∧ s.io.asleep q = some (.exec p) ∧
    (s.io.scheduler q).map Scheduler.eventQ = some []

instance (s : Process) (p q : Pid) : Decidable (Stranded s p q) :=
  inferInstanceAs (Decidable (_ ∧ _ ∧ _ ∧ _))

/-- There is no memory for the event of the exit call, or `pthread_key_create` has failed, and
nobody looks at either result. -/
theorem termination_fails_silently :
    (∃ s, Transition.Reach Process.step Documented init s ∧ s.workerKey = some true ∧
      s.Stranded 1 10) ∧
    ∃ s, Transition.Reach Process.step Documented init s ∧ s.workerKey = some false ∧
      s.Stranded 1 10 :=
  ⟨Transition.Reach.exists_of_run Process.step Documented init
      (executedOnce true ++ [.finish 1 false]) _ (by decide +kernel),
    Transition.Reach.exists_of_run Process.step Documented init
      (executedOnce false ++ [.finish 1 true]) _ (by decide +kernel)⟩

end Process

end LinuxUms
