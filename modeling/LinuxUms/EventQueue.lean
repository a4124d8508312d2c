import LinuxUms.Complist
import LinuxUms.Transition

/-! Scheduling events, from `enqueue_ums_sched_event` in the kernel to the entry point that
`enter_ums_scheduling_mode` of the library calls. One scheduler, one thread draining its
queue, any number of workers posting to it. -/
namespace LinuxUms

/-- A `void *` of the application; 0 is NULL. -/
abbrev UserPtr := ℕ

/-- `struct ums_sched_event`: the type and the union member that goes with it. -/
inductive Event where
  | schedulerStartup
  | threadYield (context : Pid) (schedulerParams : UserPtr)
  | threadTerminated (context : Pid)
  deriving DecidableEq

/-- The worker an event is about. -/
def Event.context : Event → Option Pid
  | .schedulerStartup => none
  | .threadYield c _ | .threadTerminated c => some c

def eventAddHead : ℕ := 1

def eventAddTail : ℕ := 2

/-- The insertion made by `enqueue_ums_sched_event` under `scheduler->lock`. -/
def enqueueUmsSchedEvent (eventQ : List Event) (event : Event) (flags : ℕ) : List Event :=
  if flags &&& eventAddHead ≠ 0 then event :: eventQ
  else if flags &&& eventAddTail ≠ 0 then eventQ ++ [event]
  else eventQ

inductive UmsReason where
  | schedulerStartup
  | threadYield
  | threadEnd
  deriving DecidableEq

/-- The arguments of one entry point call; `none` for a NULL activation. -/
structure EntryCall where
  reason : UmsReason
  activation : Option Pid
  schedulerParam : UserPtr
  deriving DecidableEq

/-- The switch in the loop of `enter_ums_scheduling_mode`. -/
def entryCall (schedulerParam : UserPtr) : Event → EntryCall
  | .schedulerStartup => ⟨.schedulerStartup, none, schedulerParam⟩
  | .threadYield c p => ⟨.threadYield, some c, p⟩
  | .threadTerminated c => ⟨.threadEnd, some c, 0⟩

/-- The `errno` values of `IOCTL_UMS_SCHED_DQEVENT`. -/
inductive Errno where
  | eintr
  | eacces
  | esrch
  deriving DecidableEq

/-- Where the scheduler thread is. -/
inductive SchedPc where
  -- In `enter_ums_scheduler_mode`, the scheduler registered, its startup event not queued.
  | entering
  -- At the top of the library loop.
  | loop
  -- In `ums_sched_dqevent`, before the lookup of the calling thread.
  | find
  -- In `do_dequeue_ums_sched_event`, about to take the lock and test the queue.
  | test
  -- In `wait_event_interruptible`.
  | wait
  -- The event is off the queue and the lock released; about to `copy_to_user`.
  | copy (e : Event)
  -- The copy failed; about to put the event back.
  | putBack (e : Event)
  -- The ioctl failed, having put back this event if it had one.
  | failed (err : Errno) (undelivered : Option Event)
  -- The ioctl returned 0 with this event in the user buffer.
  | got (e : Event)
  -- Inside the entry point.
  | entry
  -- `enter_ums_scheduling_mode` returned -1.
  | stopped (err : Errno) (undelivered : Option Event)
  deriving DecidableEq

/-- One scheduler with the history of its events and of its entry point calls. `executed`
says that the scheduler thread has executed some worker, so that a parent pointer leads here. -/
structure EventSys where
  registered : Bool
  eventQ : List Event
  pc : SchedPc
  executed : Bool
  enqueued : List Event
  delivered : List Event
  calls : List EntryCall

inductive EventAct where
  | startup
  -- A worker's `enqueue_ums_sched_event(scheduler, kevent, EVENT_ADD_TAIL)`.
  | post (e : Event)
  -- The entry point executes a worker.
  | exec
  | ioctl
  | lookup
  | take
  | wake
  -- A signal ends the wait; the call is restarted or fails with `EINTR`.
  | interrupt (restart : Bool)
  | copyToUser (ok : Bool)
  | requeue
  | checkErrno
  | callEntry
  | returnEntry
  deriving DecidableEq

def EventSys.init : EventSys := ⟨true, [], .entering, false, [], [], []⟩

/-- One step; `param` is `scheduler_startup_info->scheduler_param`. -/
def EventSys.step (param : UserPtr) (s : EventSys) : EventAct → Option EventSys
  | .startup =>
    if s.pc = .entering then
      some { s with
        eventQ := enqueueUmsSchedEvent s.eventQ .schedulerStartup eventAddTail
        enqueued := s.enqueued ++ [.schedulerStartup]
        pc := .loop }
    else none
  | .post e =>
    if s.executed then
      some { s with
        eventQ := enqueueUmsSchedEvent s.eventQ e eventAddTail
        enqueued := s.enqueued ++ [e] }
    else none
  | .exec => if s.pc = .entry then some { s with executed := true } else none
  | .ioctl => if s.pc = .loop then some { s with pc := .find } else none
  | .lookup =>
    if s.pc = .find then
      some { s with pc := if s.registered then .test else .failed .esrch none }
    else none
  | .take =>
    if s.pc = .test then
      match s.eventQ with
      | [] => some { s with pc := .wait }
      | e :: q => some { s with eventQ := q, pc := .copy e }
    else none
  | .wake => if s.pc = .wait ∧ s.eventQ ≠ [] then some { s with pc := .test } else none
  | .interrupt restart =>
    -- -ERESTARTSYS is for the kernel's eyes: the call starts over, or the library gets EINTR
    if s.pc = .wait then
      some { s with pc := if restart then .find else .failed .eintr none }
    else none
  | .copyToUser ok =>
    match s.pc with
    | .copy e =>
      if ok then some { s with pc := .got e, delivered := s.delivered ++ [e] }
      else some { s with pc := .putBack e }
    | _ => none
  | .requeue =>
    match s.pc with
    | .putBack e =>
      some { s with
        eventQ := enqueueUmsSchedEvent s.eventQ e eventAddHead
        pc := .failed .eacces (some e) }
    | _ => none
  | .checkErrno =>
    match s.pc with
    | .failed err u => some { s with pc := if err = .eintr then .loop else .stopped err u }
    | _ => none
  | .callEntry =>
    match s.pc with
    | .got e => some { s with pc := .entry, calls := s.calls ++ [entryCall param e] }
    | _ => none
  | .returnEntry => if s.pc = .entry then some { s with pc := .loop } else none

/-- The event between its removal from the queue and its delivery or return. -/
def SchedPc.inFlight : SchedPc → List Event
  | .copy e | .putBack e => [e]
  | _ => []

/-- The delivered event whose entry point call is still to come. -/
def SchedPc.uncalled : SchedPc → List Event
  | .got e => [e]
  | _ => []

/-- What the entry point is to be told about an event. -/
inductive Announces (param : UserPtr) : Event → EntryCall → Prop where
  | startup : Announces param .schedulerStartup ⟨.schedulerStartup, none, param⟩
  | threadYield (c : Pid) (p : UserPtr) :
      Announces param (.threadYield c p) ⟨.threadYield, some c, p⟩
  | threadEnd (c : Pid) (p : UserPtr) :
      Announces param (.threadTerminated c) ⟨.threadEnd, some c, p⟩

theorem entryCall_announces (param : UserPtr) (e : Event) :
    Announces param e (entryCall param e) := by
  cases e with
  | schedulerStartup => exact .startup
  | threadYield c p => exact .threadYield c p
  | threadTerminated c => exact .threadEnd c 0

/-- The event a failed call has put back is the first of the queue, and only a failed copy
puts one back. -/
def PutBackFirst (q : List Event) : SchedPc → Prop
  | .failed err u =>
    (err = .eintr ∧ u = none) ∨ (err = .eacces ∧ ∃ e, u = some e ∧ q.head? = some e)
  | .stopped err u => err = .eacces ∧ ∃ e, u = some e ∧ q.head? = some e
  | _ => True

structure EventInv (param : UserPtr) (s : EventSys) : Prop where
  registered : s.registered = true
  conserved : s.delivered ++ s.pc.inFlight ++ s.eventQ = s.enqueued
  entering : s.pc = .entering → s.executed = false ∧ s.enqueued = []
  started : s.pc ≠ .entering → s.enqueued.head? = some .schedulerStartup
  called : ∃ d, s.delivered = d ++ s.pc.uncalled ∧ List.Forall₂ (Announces param) d s.calls
  putBack : PutBackFirst s.eventQ s.pc

theorem eventInv_init (param : UserPtr) : EventInv param EventSys.init :=
  ⟨rfl, rfl, fun _ => ⟨rfl, rfl⟩, fun h => absurd rfl h, ⟨[], rfl, .nil⟩, trivial⟩

section Steps

variable {param : UserPtr} {s : EventSys}

/-- A move of the thread from `pc` to `pc'` that touches no event. -/
theorem EventInv.setPc (hI : EventInv param s) {pc : SchedPc} (hpc : s.pc = pc) (pc' : SchedPc)
    (hne : pc ≠ .entering) (hf : pc'.inFlight = pc.inFlight) (hu : pc'.uncalled = pc.uncalled)
    (hp : PutBackFirst s.eventQ pc') (hne' : pc' ≠ .entering) :
    EventInv param { s with pc := pc' } := by
  subst hpc
  refine ⟨hI.registered, ?_, fun he => absurd he hne', fun _ => hI.started hne, ?_, hp⟩
  · show s.delivered ++ pc'.inFlight ++ s.eventQ = s.enqueued
    rw [hf]
    exact hI.conserved
  · obtain ⟨d, hd, hc⟩ := hI.called
    exact ⟨d, by rw [hu]; exact hd, hc⟩

/-- Appending to the queue keeps the event that was put back in front. -/
theorem putBackFirst_append (q : List Event) (e : Event) (pc : SchedPc) (hp : PutBackFirst q pc) :
    PutBackFirst (q ++ [e]) pc := by
  have hh (x : Event) (hx : q.head? = some x) : (q ++ [e]).head? = some x := by
    rw [List.head?_append, hx, Option.some_or]
  cases pc with
  | failed err u =>
    rcases hp with hp | ⟨he, x, hu, hx⟩
    · exact Or.inl hp
    · exact Or.inr ⟨he, x, hu, hh x hx⟩
  | stopped err u =>
    obtain ⟨he, x, hu, hx⟩ := hp
    exact ⟨he, x, hu, hh x hx⟩
  | _ => trivial

theorem EventInv.post (hI : EventInv param s) (e : Event) (hx : s.executed = true) :
    EventInv param { s with eventQ := s.eventQ ++ [e], enqueued := s.enqueued ++ [e] } := by
  have hne : s.pc ≠ .entering := by
    intro he
    rw [(hI.entering he).1] at hx
    cases hx
  refine ⟨hI.registered, ?_, fun he => absurd he hne, fun _ => ?_, hI.called,
    putBackFirst_append _ e _ hI.putBack⟩
  · show s.delivered ++ s.pc.inFlight ++ (s.eventQ ++ [e]) = s.enqueued ++ [e]
    rw [← List.append_assoc, hI.conserved]
  · show (s.enqueued ++ [e]).head? = some .schedulerStartup
    rw [List.head?_append, hI.started hne, Option.some_or]

/-- Removal, successful delivery and return of an event: the three places where one changes
hands. -/
theorem EventInv.take (hI : EventInv param s) (e : Event) (q : List Event) (hp : s.pc = .test)
    (hq : s.eventQ = e :: q) : EventInv param { s with eventQ := q, pc := .copy e } := by
  have hne : s.pc ≠ .entering := by rw [hp]; nofun
  have hc := hI.conserved
  refine ⟨hI.registered, ?_, nofun, fun _ => hI.started hne, ?_, trivial⟩
  · rw [hp, hq] at hc
    simpa [SchedPc.inFlight] using hc
  · obtain ⟨d, hd, hcalls⟩ := hI.called
    rw [hp] at hd
    exact ⟨d, hd, hcalls⟩

theorem EventInv.deliver (hI : EventInv param s) (e : Event) (hp : s.pc = .copy e) :
    EventInv param { s with pc := .got e, delivered := s.delivered ++ [e] } := by
  have hne : s.pc ≠ .entering := by rw [hp]; nofun
  have hc := hI.conserved
  refine ⟨hI.registered, ?_, nofun, fun _ => hI.started hne, ?_, trivial⟩
  · rw [hp] at hc
    simpa [SchedPc.inFlight] using hc
  · obtain ⟨d, hd, hcalls⟩ := hI.called
    rw [hp] at hd
    refine ⟨d, ?_, hcalls⟩
    show s.delivered ++ [e] = d ++ [e]
    rw [hd]
    simp [SchedPc.uncalled]

theorem EventInv.requeue (hI : EventInv param s) (e : Event) (hp : s.pc = .putBack e) :
    EventInv param { s with eventQ := e :: s.eventQ, pc := .failed .eacces (some e) } := by
  have hne : s.pc ≠ .entering := by rw [hp]; nofun
  have hc := hI.conserved
  refine ⟨hI.registered, ?_, nofun, fun _ => hI.started hne, ?_, Or.inr ⟨rfl, e, rfl, rfl⟩⟩
  · rw [hp] at hc
    simpa [SchedPc.inFlight] using hc
  · obtain ⟨d, hd, hcalls⟩ := hI.called
    rw [hp] at hd
    exact ⟨d, hd, hcalls⟩

theorem EventInv.call (hI : EventInv param s) (e : Event) (hp : s.pc = .got e) :
    EventInv param { s with pc := .entry, calls := s.calls ++ [entryCall param e] } := by
  have hne : s.pc ≠ .entering := by rw [hp]; nofun
  have hc := hI.conserved
  refine ⟨hI.registered, ?_, nofun, fun _ => hI.started hne, ?_, trivial⟩
  · rw [hp] at hc
    exact hc
  · obtain ⟨d, hd, hcalls⟩ := hI.called
    rw [hp] at hd
    refine ⟨d ++ [e], by simpa [SchedPc.uncalled] using hd, ?_⟩
    exact List.rel_append hcalls (.cons (entryCall_announces param e) .nil)

theorem EventInv.startup (hI : EventInv param s) (hp : s.pc = .entering) :
    EventInv param { s with
      eventQ := s.eventQ ++ [.schedulerStartup]
      enqueued := s.enqueued ++ [.schedulerStartup]
      pc := .loop } := by
  have hc := hI.conserved
  obtain ⟨-, hq⟩ := hI.entering hp
  rw [hp] at hc
  refine ⟨hI.registered, ?_, nofun, fun _ => by rw [hq]; rfl, ?_, trivial⟩
  · show s.delivered ++ [] ++ (s.eventQ ++ [.schedulerStartup]) = s.enqueued ++ [.schedulerStartup]
    rw [← List.append_assoc, ← hc]
    rfl
  · obtain ⟨d, hd, hcalls⟩ := hI.called
    rw [hp] at hd
    exact ⟨d, hd, hcalls⟩

end Steps

theorem eventInv_step (param : UserPtr) (s s' : EventSys) (a : EventAct) (hI : EventInv param s)
    (hs : s.step param a = some s') : EventInv param s' := by
  cases a with
  | startup =>
    simp only [EventSys.step, Option.ite_none_right_eq_some, Option.some.injEq] at hs
    obtain ⟨hp, rfl⟩ := hs
    exact hI.startup hp
  | post e =>
    simp only [EventSys.step, Option.ite_none_right_eq_some, Option.some.injEq] at hs
    obtain ⟨hx, rfl⟩ := hs
    exact hI.post e hx
  | exec =>
    simp only [EventSys.step, Option.ite_none_right_eq_some, Option.some.injEq] at hs
    obtain ⟨hp, rfl⟩ := hs
    -- workers are executed from the entry function, so the thread has left `entering`
    refine ⟨hI.registered, hI.conserved, fun he => ?_, hI.started, hI.called, hI.putBack⟩
    rw [hp] at he
    cases he
  | ioctl =>
    simp only [EventSys.step, Option.ite_none_right_eq_some, Option.some.injEq] at hs
    obtain ⟨hp, rfl⟩ := hs
    exact hI.setPc hp .find nofun rfl rfl trivial nofun
  | lookup =>
    simp only [EventSys.step, Option.ite_none_right_eq_some, Option.some.injEq] at hs
    obtain ⟨hp, rfl⟩ := hs
    rw [if_pos hI.registered]
    exact hI.setPc hp .test nofun rfl rfl trivial nofun
  | take =>
    simp only [EventSys.step, Option.ite_none_right_eq_some] at hs
    obtain ⟨hp, hs⟩ := hs
    split at hs
    · obtain rfl := Option.some.inj hs
      exact hI.setPc hp .wait nofun rfl rfl trivial nofun
    · rename_i e q hq
      obtain rfl := Option.some.inj hs
      exact hI.take e q hp hq
  | wake =>
    simp only [EventSys.step, Option.ite_none_right_eq_some, Option.some.injEq] at hs
    obtain ⟨⟨hp, -⟩, rfl⟩ := hs
    exact hI.setPc hp .test nofun rfl rfl trivial nofun
  | interrupt restart =>
    simp only [EventSys.step, Option.ite_none_right_eq_some, Option.some.injEq] at hs
    obtain ⟨hp, rfl⟩ := hs
    cases restart with
    | true =>
      exact hI.setPc hp .find nofun rfl rfl trivial nofun
    | false =>
      exact hI.setPc hp (.failed .eintr none) nofun rfl rfl (Or.inl ⟨rfl, rfl⟩) nofun
  | copyToUser ok =>
    simp only [EventSys.step] at hs
    split at hs
    · rename_i e hp
      cases ok with
      | true =>
        obtain rfl := Option.some.inj hs
        exact hI.deliver e hp
      | false =>
        obtain rfl := Option.some.inj hs
        exact hI.setPc hp (.putBack e) nofun rfl rfl trivial nofun
    · cases hs
  | requeue =>
    simp only [EventSys.step] at hs
    split at hs
    · rename_i e hp
      obtain rfl := Option.some.inj hs
      exact hI.requeue e hp
    · cases hs
  | checkErrno =>
    simp only [EventSys.step] at hs
    split at hs
    · rename_i err u hp
      obtain rfl := Option.some.inj hs
      have hput := hI.putBack
      rw [hp] at hput
      rcases hput with ⟨rfl, rfl⟩ | ⟨rfl, hu⟩
      -- EINTR: nothing was taken, the loop goes round; EACCES: the event is back in front
      · exact hI.setPc hp .loop nofun rfl rfl trivial nofun
      · exact hI.setPc hp (.stopped .eacces u) nofun rfl rfl ⟨rfl, hu⟩ nofun
    · cases hs
  | callEntry =>
    simp only [EventSys.step] at hs
    split at hs
    · rename_i e hp
      obtain rfl := Option.some.inj hs
      exact hI.call e hp
    · cases hs
  | returnEntry =>
    simp only [EventSys.step, Option.ite_none_right_eq_some, Option.some.injEq] at hs
    obtain ⟨hp, rfl⟩ := hs
    exact hI.setPc hp .loop nofun rfl rfl trivial nofun

/-- States of one scheduler's event path, over every interleaving. -/
def EventReachable (param : UserPtr) : EventSys → Prop :=
  Transition.Reach (EventSys.step param) (fun _ _ => True) EventSys.init

/-- Once the loop has returned, it makes no further call. -/
theorem stopped_final (param : UserPtr) (s s' : EventSys) (a : EventAct) (err : Errno)
    (u : Option Event) (hp : s.pc = .stopped err u) (hs : s.step param a = some s') :
    s'.pc = s.pc ∧ s'.calls = s.calls := by
  cases a with
  | post e =>
    simp only [EventSys.step, Option.ite_none_right_eq_some, Option.some.injEq] at hs
    obtain ⟨-, rfl⟩ := hs
    exact ⟨rfl, rfl⟩
  | _ => simp [EventSys.step, hp] at hs

/-- Exactly-once, in-order delivery. What was delivered, what is in flight and what is queued
is the sequence enqueued, which starts with the startup event; the entry point has been called
once for each delivered event, in order and with its own arguments, but for the event just
copied; and the loop stops for good, on a failed copy only, with that event heading the queue. -/
theorem events_delivered_once_in_order (param : UserPtr) (s : EventSys)
    (hr : EventReachable param s) :
    s.delivered ++ s.pc.inFlight ++ s.eventQ = s.enqueued ∧
    (s.enqueued = [] ∨ s.enqueued.head? = some .schedulerStartup) ∧
    (∃ d, s.delivered = d ++ s.pc.uncalled ∧ List.Forall₂ (Announces param) d s.calls) ∧
    ∀ err u, s.pc = .stopped err u →
      err ≠ .eintr ∧ (∃ e, u = some e ∧ s.eventQ.head? = some e) ∧
      ∀ a s', s.step param a = some s' → s'.pc = s.pc ∧ s'.calls = s.calls := by
  have hI : EventInv param s := Transition.Reach.invariant (EventInv param) (eventInv_init param)
    (fun s a s' hI _ hs => eventInv_step param s s' a hI hs) hr
  refine ⟨hI.conserved, ?_, hI.called, ?_⟩
  · by_cases hp : s.pc = .entering
    · exact Or.inl (hI.entering hp).2
    · exact Or.inr (hI.started hp)
  · intro err u hp
    have hput := hI.putBack
    rw [hp] at hput
    exact ⟨by rw [hput.1]; nofun, hput.2, fun a s' => stopped_final param s s' a err u hp⟩

/-- Startup delivered, an interrupted wait, a yield delivered, then a termination whose copy
fails while a further event is posted. -/
def eventRun : List EventAct :=
  [.startup, .ioctl, .lookup, .take, .copyToUser true, .callEntry, .exec, .returnEntry,
    .ioctl, .lookup, .take, .interrupt false, .checkErrno, .ioctl, .lookup, .take,
    .post (.threadYield 7 42), .wake, .take, .copyToUser true, .callEntry, .returnEntry,
    .post (.threadTerminated 7), .ioctl, .lookup, .take, .post (.threadYield 9 1),
    .copyToUser false, .requeue, .checkErrno]

theorem events_delivered_once_in_order_run : ∃ s, EventReachable 5 s ∧
    s.calls = [⟨.schedulerStartup, none, 5⟩, ⟨.threadYield, some 7, 42⟩] ∧
    s.pc = .stopped .eacces (some (.threadTerminated 7)) ∧
    s.delivered ++ s.pc.inFlight ++ s.eventQ = s.enqueued := by
  obtain ⟨s, hr, hp⟩ := Transition.Reach.exists_of_run (EventSys.step 5) (fun _ _ => True)
    EventSys.init eventRun
    (fun s => s.calls = [⟨.schedulerStartup, none, 5⟩, ⟨.threadYield, some 7, 42⟩] ∧
      s.pc = .stopped .eacces (some (.threadTerminated 7))) (by decide)
  exact ⟨s, hr, hp.1, hp.2, (events_delivered_once_in_order 5 s hr).1⟩

end LinuxUms
