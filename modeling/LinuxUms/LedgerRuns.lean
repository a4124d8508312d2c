import LinuxUms.Release

namespace LinuxUms

open KernelList

theorem update_bind_eq {α β γ : Type*} [DecidableEq α] (f : α → Option β) (a : α) (x y : β)
    (g : β → Option γ) (ha : f a = some x) (hg : g y = g x) (b : α) :
    (Function.update f a (some y) b).bind g = (f b).bind g := by
  by_cases hb : b = a
  · subst hb
    simp [ha, hg]
  · rw [Function.update_of_ne hb]

/-- The same contexts are attached to the same lists, and no queue of events has changed. -/
structure Steady (s s' : IoState) : Prop where
  list : s'.list = s.list
  attached : s'.attached = s.attached
  eventQ : ∀ p y', s'.scheduler p = some y' → ∃ y, s.scheduler p = some y ∧
    y'.eventQ = y.eventQ ∧ y'.complist = y.complist

theorem Steady.of_eq {s s' : IoState} (hl : s'.list = s.list) (hw : s'.worker = s.worker)
    (hs : s'.scheduler = s.scheduler) : Steady s s' := by
  refine ⟨hl, funext fun c => ?_, fun p y hy => ⟨y, hs ▸ hy, rfl, rfl⟩⟩
  cases c <;> simp [IoState.attached, hw, hs]

/-- Dequeues, iterations and executions attach and detach nobody. -/
theorem IoState.Effect.steady {s s' : IoState} {act : IoAct} (heff : s.Effect act s')
    (hact : (∃ t l copied, act = .dqcontext t l copied) ∨ (∃ t c, act = .nextContext t c) ∨
      ∃ t w, act = .exec t w) : Steady s s' := by
  cases heff with
  | dequeueRefused | dequeued | putBack | nextUnknown | nextEnd | nextTaken | execRefused =>
    exact .of_eq rfl rfl rfl
  | executed t w x y hx hi hr hy =>
    refine ⟨rfl, funext fun c => ?_, fun p y' hy' => ?_⟩
    · cases c with
      | worker u => exact update_bind_eq s.worker w x _ Worker.complist hx (by rfl) u
      | scheduler u => exact update_bind_eq s.scheduler t y _ Scheduler.complist hy (by rfl) u
    · rcases update_some_cases hy' with ⟨rfl, rfl⟩ | ⟨-, hy'⟩
      · exact ⟨y, hy, rfl, rfl⟩
      · exact ⟨y', hy', rfl, rfl⟩
  | _ => simp at hact

namespace Ledger

variable {s s' : Ledger} {t : Pid} {l : ListId} {c : ContextRef}

structure OpenInv (s : Ledger) : Prop where
  sound : s.Sound
  io : s.io.Inv
  placed : s.io.Placed
  queues : ∀ p y, s.io.scheduler p = some y → (s.eventsOf p).length = y.eventQ.length

theorem OpenInv.touch (hi : s.OpenInv) (act : IoAct) (hok : Guarded s.io act)
    (ha : s.io.asleep act.caller = none) : s.touch (touched s.io act) = s.mem :=
  hi.sound.touch _ (hi.io.has_touched hi.placed act hok ha)

theorem OpenInv.worker_attached (hi : s.OpenInv) :
    s.io.attached (.worker t) = none ↔ s.io.worker t = none := by
  constructor
  · intro h
    by_contra hne
    exact hi.io.has_worker hne h
  · intro h
    simp [IoState.attached, h]

theorem OpenInv.scheduler_attached (hi : s.OpenInv) :
    s.io.attached (.scheduler t) = none ↔ s.io.scheduler t = none := by
  constructor
  · intro h
    by_contra hne
    exact hi.placed.has hne h
  · intro h
    simp [IoState.attached, h]

theorem OpenInv.steady (hi : s.OpenInv) (io : IoState) (hio : io.Inv) (hs : Steady s.io io) :
    OpenInv { s with io := io } := by
  refine ⟨hi.sound.setIo io ?_ (fun l => by rw [hs.list]) hs.attached, hio, fun p y' hy' => ?_,
    fun p y' hy' => ?_⟩
  · rw [hs.list, hs.attached]
    exact hi.sound.attached
  · obtain ⟨y, hy, -, hl⟩ := hs.eventQ p y' hy'
    rw [hl]
    exact hi.placed p y hy
  · obtain ⟨y, hy, hq, -⟩ := hs.eventQ p y' hy'
    rw [hq]
    exact hi.queues p y hy

/-- A change of the memory alone. -/
theorem OpenInv.setMem (hi : s.OpenInv) (m : Slab) (hm : m.Balanced s.owned)
    (hb : m.bad = false) : OpenInv { s with mem := m } :=
  ⟨⟨hi.sound.attached, hi.sound.lists, hi.sound.listsNodup, hi.sound.contexts,
    hi.sound.contextsNodup, hi.sound.events, hm, hi.sound.tasks, hb⟩, hi.io, hi.placed, hi.queues⟩

theorem OpenInv.plain (hi : s.OpenInv) (act : IoAct) (hok : Guarded s.io act)
    (hact : (∃ t l copied, act = .dqcontext t l copied) ∨ (∃ t c, act = .nextContext t c) ∨
      ∃ t w, act = .exec t w) (h : s.plain act = some s') :
    s'.OpenInv ∧ s'.opened = s.opened := by
  obtain ⟨io, hio, rfl⟩ := Option.map_eq_some_iff.mp h
  obtain ⟨ha, heff⟩ := hi.io.effect act hok io hio
  rw [hi.touch act hok ha]
  exact ⟨hi.steady io (hi.io.step act hok io hio) (heff.steady hact), rfl⟩

theorem OpenInv.create (hi : s.OpenInv) (luck : LedgerLuck)
    (hok : luck.alloc = true → luck.copied = true → luck.id = true)
    (h : s.createUmsComplist t l luck = some s') : s'.OpenInv ∧ s'.opened = s.opened := by
  unfold createUmsComplist at h
  split at h
  · obtain rfl := Option.some.inj h
    exact ⟨hi, rfl⟩
  rename_i halloc
  split at h
  · obtain rfl := Option.some.inj h
    exact ⟨hi.setMem _ hi.sound.mem.alloc.free hi.sound.good, rfl⟩
  rename_i hcopied
  split at h
  · rename_i hid
    have hid' := hok (by simpa using halloc) (by simpa using hcopied)
    rw [hid'] at hid
    cases hid
  · obtain ⟨io, hio, rfl⟩ := Option.map_eq_some_iff.mp h
    obtain ⟨-, heff⟩ := hi.io.effect (.create t l) trivial io hio
    have hinv := hi.io.step (.create t l) trivial io hio
    cases heff with
    | created _ _ hl =>
      refine ⟨⟨hi.sound.createList hl _ rfl (funext fun c => ?_), hinv, hi.placed, hi.queues⟩, rfl⟩
      cases c <;> rfl

theorem OpenInv.delete (hi : s.OpenInv) (hok : Guarded s.io (.delete t l))
    (h : s.umsComplistDelete t l = some s') : s'.OpenInv ∧ s'.opened = s.opened := by
  obtain ⟨io, hio, rfl⟩ := Option.map_eq_some_iff.mp h
  obtain ⟨ha, heff⟩ := hi.io.effect (.delete t l) hok io hio
  have hinv := hi.io.step (.delete t l) hok io hio
  obtain ⟨-, -, hevents, hmem, -, hopened⟩ := s.putUmsComplist_fields l
  have htouch : s.touch (touched s.io (.delete t l)) = (s.putUmsComplist l).mem :=
    (hi.touch _ hok ha).trans hmem.symm
  rw [htouch]
  refine ⟨?_, hopened⟩
  have hqueues (p : Pid) : (s.putUmsComplist l).eventsOf p = s.eventsOf p := by
    simp only [eventsOf, hevents]
  cases heff with
  | deleteUnknown _ _ hl =>
    have hsame : s.putUmsComplist l = s := by
      simp [Ledger.putUmsComplist, hl]
    rw [hsame]
    exact hi
  | deleted _ _ o hl ho =>
    refine ⟨hi.sound.deleteList o hl ho _ (IoState.putUmsComplist_list _)
      (attached_putUmsComplist _ _ _), hinv, ?_, ?_⟩
    · intro p y hy
      simp only [IoState.putUmsComplist_scheduler] at hy
      exact hi.placed p y hy
    · intro p y hy
      simp only [IoState.putUmsComplist_scheduler] at hy
      exact (congrArg List.length (hqueues p)).trans (hi.queues p y hy)

theorem OpenInv.enterWorker (hi : s.OpenInv) (node : Links Node) (zero : Bool) (luck : LedgerLuck)
    (ha : s.io.asleep t = none) (hl : s.io.list l ≠ none) (hw : s.io.worker t = none)
    (halloc : luck.alloc = true) (hinit : luck.init = true)
    (h : s.enterUmsWorkerMode t (.enterWorker t l node zero) luck = some s') :
    s'.OpenInv ∧ s'.opened = s.opened := by
  have hok : Guarded s.io (.enterWorker t l node zero) := hl
  simp only [enterUmsWorkerMode, halloc, hinit, hw, Option.isSome_none, Bool.true_eq_false,
    Bool.false_eq_true, or_self, if_false] at h
  obtain ⟨io, hio, rfl⟩ := Option.map_eq_some_iff.mp h
  obtain ⟨-, heff⟩ := hi.io.effect _ hok io hio
  have hinv := hi.io.step _ hok io hio
  rw [hi.touch _ hok ha]
  cases heff with
  | reenteredWorker _ _ _ _ hne => exact absurd hw hne
  | enteredWorker _ _ _ _ o q heap _ ho hq =>
    refine ⟨⟨hi.sound.enter (hi.worker_attached.mpr hw) o ho _ rfl (funext fun c => ?_), hinv,
      hi.placed, hi.queues⟩, rfl⟩
    by_cases hc : c = .worker t
    · subst hc
      simp [IoState.attached, IoState.queued]
    · rw [Function.update_of_ne hc]
      cases c with
      | worker u =>
        have hut : u ≠ t := fun he => hc (he ▸ rfl)
        simp [IoState.attached, IoState.queued, IoState.getUmsComplist, Function.update_of_ne hut]
      | scheduler u => rfl

theorem eventsOf_append (p q : Pid) (a : ℕ) :
    { s with events := s.events ++ [(q, a)] }.eventsOf p =
      if q = p then s.eventsOf p ++ [(q, a)] else s.eventsOf p := by
  simp only [eventsOf, List.filter_append]
  split
  · rename_i h
    simp [h]
  · rename_i h
    simp [h]

theorem OpenInv.enterScheduler (hi : s.OpenInv) (luck : LedgerLuck) (ha : s.io.asleep t = none)
    (hl : s.io.list l ≠ none) (hs : s.io.scheduler t = none) (halloc : luck.alloc = true)
    (hinit : luck.init = true) (hevent : luck.event = true)
    (h : s.enterUmsSchedulerMode t (.enterScheduler t l) luck = some s') :
    s'.OpenInv ∧ s'.opened = s.opened := by
  have hok : Guarded s.io (.enterScheduler t l) := hl
  simp only [enterUmsSchedulerMode, halloc, hinit, hevent, hs, Option.isSome_none,
    Bool.true_eq_false, Bool.false_eq_true, or_self, if_false] at h
  obtain ⟨io, hio, rfl⟩ := Option.map_eq_some_iff.mp h
  obtain ⟨-, heff⟩ := hi.io.effect _ hok io hio
  have hinv := hi.io.step _ hok io hio
  rw [hi.touch _ hok ha]
  cases heff with
  | reenteredScheduler _ _ hne => exact absurd hs hne
  | enteredScheduler _ _ o _ ho =>
    have hentered := hi.sound.enter (hi.scheduler_attached.mpr hs) o ho
      { s.io.getUmsComplist l o (.scheduler t) with
        scheduler := Function.update s.io.scheduler t (some ⟨⟨.running, .junk, 0⟩, some l,
          enqueueUmsSchedEvent [] .schedulerStartup eventAddTail⟩) } rfl (funext fun c => by
        by_cases hc : c = .scheduler t
        · subst hc
          simp [IoState.attached]
        · rw [Function.update_of_ne hc]
          cases c with
          | worker u => rfl
          | scheduler u =>
            have hut : u ≠ t := fun he => hc (he ▸ rfl)
            simp [IoState.attached, Function.update_of_ne hut])
    -- no event is addressed to a thread that was no scheduler
    have hnone : s.eventsOf t = [] := by
      refine List.filter_eq_nil_iff.mpr fun e he => ?_
      have hne := hi.sound.events e he
      simp only [decide_eq_true_eq]
      rintro rfl
      exact hne (hi.scheduler_attached.mpr hs)
    refine ⟨⟨hentered.addEvent t (by simp [IoState.attached]), hinv, fun p y hy => ?_,
      fun p y hy => ?_⟩, rfl⟩
    · rcases update_some_cases hy with ⟨rfl, rfl⟩ | ⟨-, hy⟩
      · simp
      · exact hi.placed p y hy
    · have happend := s.eventsOf_append p t (s.mem.next + 1)
      refine (congrArg List.length happend).trans ?_
      rcases update_some_cases hy with ⟨rfl, rfl⟩ | ⟨hne, hy⟩
      · simp [hnone, enqueueUmsSchedEvent, eventAddTail, eventAddHead]
      · rw [if_neg (Ne.symm hne)]
        exact hi.queues p y hy

/-- What a notification does to the books: one more event in one queue. -/
theorem OpenInv.notify_queues (hi : s.OpenInv) (p : Pid) (y : Scheduler)
    (hy : s.io.scheduler p = some y) (e : Event) (context : UmsContext) (a : ℕ) (q : Pid)
    (z : Scheduler)
    (hz : Function.update s.io.scheduler p (some ⟨context, y.complist,
      enqueueUmsSchedEvent y.eventQ e eventAddTail⟩) q = some z) :
    z.complist ≠ none ∧
      ({ s with events := s.events ++ [(p, a)] }.eventsOf q).length = z.eventQ.length := by
  rw [eventsOf_append]
  rcases update_some_cases hz with ⟨rfl, rfl⟩ | ⟨hne, hz⟩
  · have hlen := hi.queues q y hy
    refine ⟨hi.placed q y hy, ?_⟩
    simp [hlen, enqueueUmsSchedEvent, eventAddTail, eventAddHead]
  · rw [if_neg (Ne.symm hne)]
    exact ⟨hi.placed q z hz, hi.queues q z hz⟩

theorem OpenInv.yield (hi : s.OpenInv) (args : UserPtr) (luck : LedgerLuck)
    (h : s.umsWorkerYield t (.yield t args) luck = some s') :
    s'.OpenInv ∧ s'.opened = s.opened := by
  have hok : Guarded s.io (.yield t args) := trivial
  unfold umsWorkerYield at h
  split at h
  · obtain rfl := Option.some.inj h
    exact ⟨hi, rfl⟩
  rename_i hne
  obtain ⟨io, hio, rfl⟩ := Option.map_eq_some_iff.mp h
  obtain ⟨ha, heff⟩ := hi.io.effect _ hok io hio
  have hinv := hi.io.step _ hok io hio
  rw [hi.touch _ hok ha]
  cases heff with
  | yieldRefused _ _ hw => simp [hw] at hne
  | yielded _ _ p n k y o q heap hw hp hy hl hq hr =>
    have hnotified : s.io.notified t = some p := by
      simp [IoState.notified, hw]
    have hadded := hi.sound.addEvent p (hi.placed.has (by simp [hy]))
    have hattached : (({ s.io with
        worker := Function.update s.io.worker t (some ⟨⟨.idle, .context p, n + 1⟩, some k⟩)
        asleep := Function.update s.io.asleep t (some .yield) }.notify p y (.threadYield t args)
          (.context t)).queued k t q heap).attached = s.io.attached := funext fun c => by
      cases c with
      | worker u => exact update_bind_eq s.io.worker t _ _ Worker.complist hw (by rfl) u
      | scheduler u => exact update_bind_eq s.io.scheduler p y _ Scheduler.complist hy (by rfl) u
    simp only [hnotified, Option.toList_some, List.map_cons, List.map_nil]
    refine ⟨⟨hadded.setIo _ ?_ (fun _ => Iff.rfl) hattached, hinv, fun q z hz => ?_,
      fun q z hz => ?_⟩, trivial⟩
    · rw [hattached]
      exact hi.sound.attached
    · exact (hi.notify_queues p y hy _ _ s.mem.next q z hz).1
    · exact (hi.notify_queues p y hy _ _ s.mem.next q z hz).2

theorem OpenInv.exit (hi : s.OpenInv) (luck : LedgerLuck) (h : s.umsWorkerEnd t luck = some s') :
    s'.OpenInv ∧ s'.opened = s.opened := by
  have hok : Guarded s.io (.exit t) := trivial
  unfold umsWorkerEnd at h
  split at h
  · obtain rfl := Option.some.inj h
    exact ⟨hi, rfl⟩
  rename_i hne
  obtain ⟨io, hio, rfl⟩ := Option.map_eq_some_iff.mp h
  obtain ⟨ha, heff⟩ := hi.io.effect _ hok io hio
  have hinv := hi.io.step _ hok io hio
  rw [hi.touch _ hok ha]
  cases heff with
  | exitRefused _ hw => simp [hw] at hne
  | exited _ p n k y o hw hp hy hl hr =>
    have hnotified : s.io.notified t = some p := by
      simp [IoState.notified, hw]
    have hatt : s.io.attached (.worker t) = some k := by
      simp [IoState.attached, hw]
    have hadded := hi.sound.addEvent p (hi.placed.has (by simp [hy]))
    -- the worker drops its list; the notified scheduler keeps its own
    have hattached : ({ s.io.notify p y (.threadTerminated t) y.context.parent with
        worker := Function.update s.io.worker t none }.putUmsComplist k
          { o with holders := o.holders.erase (.worker t) }).attached =
        Function.update s.io.attached (.worker t) none := by
      rw [attached_putUmsComplist]
      funext c
      by_cases hc : c = .worker t
      · subst hc
        simp [IoState.attached]
      · rw [Function.update_of_ne hc]
        cases c with
        | worker u =>
          have hut : u ≠ t := fun he => hc (he ▸ rfl)
          simp [IoState.attached, Function.update_of_ne hut]
        | scheduler u => exact update_bind_eq s.io.scheduler p y _ Scheduler.complist hy (by rfl) u
    have hlist : ({ s.io.notify p y (.threadTerminated t) y.context.parent with
        worker := Function.update s.io.worker t none }.putUmsComplist k
          { o with holders := o.holders.erase (.worker t) }).list =
        putList s.io.list k { o with holders := o.holders.erase (.worker t) } :=
      IoState.putUmsComplist_list _
    have hleft := hadded.leave o hl hatt (by simp) _ hlist hattached
    simp only [hnotified, Ledger.umsWorkerDestroy, hadded.destroyContext_eq hatt]
    obtain ⟨-, -, hput_events, -, -, hput_opened⟩ := { s with
      mem := s.mem.alloc, events := s.events ++ [(p, s.mem.next)] }.putUmsComplist_fields k
    obtain ⟨-, -, hret_events, -, -, hret_opened⟩ := ({ s with
      mem := s.mem.alloc
      events := s.events ++ [(p, s.mem.next)] }.putUmsComplist k).retire_fields (.worker t)
    refine ⟨⟨hleft, hinv, fun q z hz => ?_, fun q z hz => ?_⟩, hret_opened.trans hput_opened⟩
    · simp only [IoState.putUmsComplist_scheduler] at hz
      exact (hi.notify_queues p y hy _ _ s.mem.next q z hz).1
    · simp only [IoState.putUmsComplist_scheduler] at hz
      simp only [eventsOf, hret_events, hput_events]
      exact (hi.notify_queues p y hy _ _ s.mem.next q z hz).2

theorem eventsOf_erase (e : Pid × ℕ) (he : e ∈ s.events) (p : Pid) :
    s.events.Perm (e :: s.events.erase e) ∧
      ((s.events.erase e).filter (fun x => x.1 = p)).length =
        if e.1 = p then (s.eventsOf p).length - 1 else (s.eventsOf p).length := by
  have hperm := List.perm_cons_erase he
  have hlen := (hperm.filter (fun x => decide (x.1 = p))).length_eq
  refine ⟨hperm, ?_⟩
  simp only [eventsOf]
  split
  · rename_i hp
    rw [List.filter_cons_of_pos (by simpa using hp), List.length_cons] at hlen
    omega
  · rename_i hp
    rw [List.filter_cons_of_neg (by simpa using hp)] at hlen
    exact hlen.symm

theorem OpenInv.dqevent (hi : s.OpenInv) (copied : Bool)
    (h : s.umsSchedDqevent t copied = some s') : s'.OpenInv ∧ s'.opened = s.opened := by
  have hok : Guarded s.io (.dqevent t copied) := trivial
  unfold umsSchedDqevent at h
  split at h
  · obtain rfl := Option.some.inj h
    exact ⟨hi, rfl⟩
  rename_i hne
  obtain ⟨io, hio, rfl⟩ := Option.map_eq_some_iff.mp h
  obtain ⟨ha, heff⟩ := hi.io.effect _ hok io hio
  have hinv := hi.io.step _ hok io hio
  cases heff with
  | noEvents _ _ hs => simp [hs] at hne
  | event _ _ x k e q hs =>
    -- the queue has an event, so the books have an event object for it
    have hlen := hi.queues t _ hs
    obtain ⟨n, es, hes⟩ : ∃ n es, s.eventsOf t = n :: es :=
      List.exists_cons_of_length_pos (by rw [hlen]; simp)
    have hn : n ∈ s.events ∧ n.1 = t := by
      have hmem : n ∈ s.eventsOf t := by simp [hes]
      simpa [eventsOf] using hmem
    obtain ⟨hmem, rfl⟩ := hn
    have huse : (s.touch (touched s.io (.dqevent n.1 copied))).use (some n.2) = s.mem := by
      rw [hi.touch _ hok ha]
      refine hi.sound.mem.use ?_
      simp only [owned, List.mem_append, List.mem_map]
      exact Or.inl (Or.inr ⟨n, hmem, rfl⟩)
    have hattached (q' : List Event) : ({ s.io with
        scheduler := Function.update s.io.scheduler n.1 (some ⟨x, k, q'⟩) } : IoState).attached =
        s.io.attached := funext fun c => by
      cases c with
      | worker u => rfl
      | scheduler u => exact update_bind_eq s.io.scheduler n.1 _ _ Scheduler.complist hs (by rfl) u
    have hplaced (q' : List Event) (p : Pid) (z : Scheduler)
        (hz : Function.update s.io.scheduler n.1 (some ⟨x, k, q'⟩) p = some z) :
        z.complist ≠ none := by
      rcases update_some_cases hz with ⟨rfl, rfl⟩ | ⟨-, hz⟩
      · exact hi.placed n.1 ⟨x, k, e :: q⟩ hs
      · exact hi.placed p z hz
    simp only [hes, huse]
    cases copied with
    | true =>
      -- the event is freed once it has been copied
      have hfree := hi.sound.freeEvent n hmem
      refine ⟨⟨hfree.setIo _ (by rw [hattached]; exact hi.sound.attached) (fun _ => Iff.rfl)
        (hattached _), hinv, hplaced _, fun p z hz => ?_⟩, rfl⟩
      refine (eventsOf_erase n hmem p).2.trans ?_
      rcases update_some_cases hz with ⟨rfl, rfl⟩ | ⟨hpn, hz⟩
      · rw [if_pos rfl, hlen]
        simp
      · rw [if_neg (Ne.symm hpn)]
        exact hi.queues p z hz
    | false =>
      -- the copy failed: the same object goes back to the front of the queue
      have hback := hi.sound.permEvents _ (eventsOf_erase n hmem n.1).1
      refine ⟨⟨hback.setIo _ (by rw [hattached]; exact hi.sound.attached) (fun _ => Iff.rfl)
        (hattached _), hinv, hplaced _, fun p z hz => ?_⟩, rfl⟩
      have hsame : ((n :: s.events.erase n).filter (fun e => decide (e.1 = p))).length =
          (s.eventsOf p).length :=
        ((eventsOf_erase n hmem p).1.filter (fun e => decide (e.1 = p))).length_eq.symm
      refine hsame.trans ?_
      rcases update_some_cases hz with ⟨rfl, rfl⟩ | ⟨-, hz⟩
      · simp [hlen, enqueueUmsSchedEvent, eventAddHead]
      · exact hi.queues p z hz

end Ledger

/-- The documented protocol with enters that succeed, and a list that is reported to its creator
has got an id. -/
def Settled (s : Ledger) : LedgerAct → Prop
  | .call (.create _ _) luck => luck.alloc = true → luck.copied = true → luck.id = true
  | .call (.enterWorker t l _ _) luck =>
    s.io.list l ≠ none ∧ s.io.worker t = none ∧ luck.alloc = true ∧ luck.init = true
  | .call (.enterScheduler t l) luck =>
    s.io.list l ≠ none ∧ s.io.scheduler t = none ∧ luck.alloc = true ∧ luck.init = true ∧
      luck.event = true
  | .call act _ => Guarded s.io act
  | _ => True

instance (s : Ledger) : DecidablePred (Settled s)
  | .call (.create _ _) _ => inferInstanceAs (Decidable (_ → _ → _))
  | .call (.enterWorker _ _ _ _) _ => inferInstanceAs (Decidable (_ ∧ _ ∧ _ ∧ _))
  | .call (.enterScheduler _ _) _ => inferInstanceAs (Decidable (_ ∧ _ ∧ _ ∧ _ ∧ _))
  | .call (.delete t l) _ => inferInstanceAs (Decidable (Guarded s.io (.delete t l)))
  | .call (.dqcontext t l copied) _ =>
    inferInstanceAs (Decidable (Guarded s.io (.dqcontext t l copied)))
  | .call (.nextContext t c) _ => inferInstanceAs (Decidable (Guarded s.io (.nextContext t c)))
  | .call (.exec t w) _ => inferInstanceAs (Decidable (Guarded s.io (.exec t w)))
  | .call (.yield t args) _ => inferInstanceAs (Decidable (Guarded s.io (.yield t args)))
  | .call (.exit t) _ => inferInstanceAs (Decidable (Guarded s.io (.exit t)))
  | .call (.dqevent t copied) _ => inferInstanceAs (Decidable (Guarded s.io (.dqevent t copied)))
  | .release _ _ _ | .grace _ => inferInstanceAs (Decidable True)

namespace Ledger

variable {s s' : Ledger}

theorem OpenInv.call (hi : s.OpenInv) (act : IoAct) (luck : LedgerLuck)
    (hok : Settled s (.call act luck)) (h : s.umsDevIoctl act luck = some s') :
    s'.OpenInv ∧ s'.opened = s.opened := by
  unfold umsDevIoctl at h
  split at h
  · cases h
  rename_i ha
  have ha := not_not.mp ha
  cases act with
  | create t l => exact hi.create luck hok h
  | delete t l => exact hi.delete hok h
  | enterWorker t l node zero =>
    obtain ⟨hl, hw, halloc, hinit⟩ := hok
    exact hi.enterWorker node zero luck ha hl hw halloc hinit h
  | enterScheduler t l =>
    obtain ⟨hl, hs, halloc, hinit, hevent⟩ := hok
    exact hi.enterScheduler luck ha hl hs halloc hinit hevent h
  | dqcontext t l copied =>
    exact hi.plain (.dqcontext t l copied) hok (Or.inl ⟨t, l, copied, rfl⟩) h
  | nextContext t c => exact hi.plain (.nextContext t c) hok (Or.inr (Or.inl ⟨t, c, rfl⟩)) h
  | exec t w => exact hi.plain (.exec t w) hok (Or.inr (Or.inr ⟨t, w, rfl⟩)) h
  | yield t args => exact hi.yield args luck h
  | exit t => exact hi.exit luck h
  | dqevent t copied => exact hi.dqevent copied h

/-- A callback frees what was waiting for it. -/
theorem grace_owned (k : ℕ) :
    s.owned.Perm ((s.pending.take k).map Callback.addr ++ (s.grace k).owned) ∧
      s.ownedTasks.Perm ((s.pending.take k).filterMap Callback.task ++ (s.grace k).ownedTasks) := by
  have haddr := congrArg (List.map Callback.addr) (List.take_append_drop k s.pending)
  have htask := congrArg (List.filterMap Callback.task) (List.take_append_drop k s.pending)
  rw [List.map_append] at haddr
  rw [List.filterMap_append] at htask
  constructor
  · refine List.perm_iff_count.mpr fun x => ?_
    simp only [owned, grace, List.count_append, ← haddr]
    omega
  · refine List.perm_iff_count.mpr fun x => ?_
    simp only [ownedTasks, grace, List.count_append, ← htask]
    omega

theorem OpenInv.grace (hi : s.OpenInv) (k : ℕ) : (s.grace k).OpenInv := by
  obtain ⟨hown, htask⟩ := s.grace_owned k
  have h := hi.sound
  refine ⟨⟨h.attached, h.lists, h.listsNodup, h.contexts, h.contextsNodup, h.events, ?_, ?_, ?_⟩,
    hi.io, hi.placed, hi.queues⟩
  · exact (h.mem.perm hown).frees _
  · exact (h.tasks.perm htask).frees _
  · simp only [Ledger.grace, Slab.foldl_free_bad]
    exact h.good

theorem Closed.grace (hc : s.Closed) (k : ℕ) : (s.grace k).Closed := by
  have haddr := congrArg (List.map Callback.addr) (List.take_append_drop k s.pending)
  have htask := congrArg (List.filterMap Callback.task) (List.take_append_drop k s.pending)
  rw [List.map_append] at haddr
  rw [List.filterMap_append] at htask
  refine ⟨?_, ?_, ?_⟩
  · refine Slab.Balanced.frees _ ?_
    simp only [Ledger.grace, haddr]
    exact hc.mem
  · refine Slab.Balanced.frees _ ?_
    simp only [Ledger.grace, htask]
    exact hc.tasks
  · simp only [Ledger.grace, Slab.foldl_free_bad]
    exact hc.good

structure Inv (s : Ledger) : Prop where
  opened : s.opened = true → s.OpenInv
  closed : s.opened = false → s.Closed

theorem inv_init : init.Inv := by
  refine ⟨fun _ => ⟨⟨⟨?_, ?_, ?_, ?_⟩, ?_, List.nodup_nil, ?_, List.nodup_nil, ?_,
    Slab.balanced_empty, Slab.balanced_empty, rfl⟩, IoState.inv_init, ?_, ?_⟩, by simp [init]⟩
  · simp [init, IoState.init]
  · simp [init, IoState.init]
  · simp [init, IoState.init]
  · intro c l
    cases c <;> simp [init, IoState.init, IoState.attached]
  · simp [init, IoState.init, Keyed.keys]
  · intro c
    cases c <;> simp [init, IoState.init, IoState.attached, Keyed.keys]
  · simp [init]
  · simp [init, IoState.init, IoState.Placed]
  · simp [init, IoState.init]

theorem Inv.step (hi : s.Inv) (act : LedgerAct) (hok : Settled s act)
    (h : s.step act = some s') : s'.Inv := by
  cases act with
  | call act luck =>
    simp only [Ledger.step] at h
    split at h
    · rename_i ho
      obtain ⟨hi', hopened⟩ := (hi.opened ho).call act luck hok h
      exact ⟨fun _ => hi', fun hc => by simp [hopened, ho] at hc⟩
    · cases h
  | release ws ss ls =>
    simp only [Ledger.step] at h
    split at h
    · rename_i hr
      obtain rfl := Option.some.inj h
      have hclosed := (hi.opened hr.1).sound.release ws ss ls (List.isPerm_iff.mp hr.2.1)
        (List.isPerm_iff.mp hr.2.2)
      exact ⟨fun ho => by simp [umsDevRelease] at ho, fun _ => hclosed⟩
    · cases h
  | grace k =>
    obtain rfl := Option.some.inj h
    exact ⟨fun ho => (hi.opened ho).grace k, fun hc => (hi.closed hc).grace k⟩

/-- In every run of the documented protocol in which every list that was reported has got an id,
nothing is used that has been freed, and once the device is released and the callbacks have run,
every piece of memory has been freed once and every reference to a task dropped once. -/
theorem release_frees_once (s : Ledger)
    (hr : Transition.Reach Ledger.step Settled Ledger.init s) :
    s.mem.bad = false ∧
      (s.opened = false →
        (∀ a < s.mem.next, (s.grace s.pending.length).mem.frees a = 1) ∧
        ∀ k < s.tasks.next, (s.grace s.pending.length).tasks.frees k = 1) := by
  have hi : s.Inv := hr.invariant Inv inv_init (fun _ act _ hi hok h => hi.step act hok h)
  constructor
  · cases ho : s.opened with
    | true => exact (hi.opened ho).sound.good
    | false => exact (hi.closed ho).good
  · intro hc
    have hclosed := (hi.closed hc).grace s.pending.length
    have hempty : (s.grace s.pending.length).pending = [] := by
      simp [Ledger.grace]
    constructor
    · intro a ha
      have hone := hclosed.mem.once a (by simpa [Ledger.grace] using ha)
      simpa [hempty] using hone
    · intro k hk
      have hone := hclosed.tasks.once k (by simpa [Ledger.grace] using hk)
      simpa [hempty] using hone

/-- Two workers and two schedulers, a worker that yields and one that ends, an event that is
delivered at the second attempt, a deleted list and one that could not be reported. -/
theorem release_frees_once_run :
    ∃ s, Transition.Reach Ledger.step Settled Ledger.init s ∧
      (s.opened = false ∧ s.mem.next = 10 ∧ s.tasks.next = 4) ∧ s.mem.bad = false ∧
      (∀ a < s.mem.next, (s.grace s.pending.length).mem.frees a = 1) ∧
      ∀ k < s.tasks.next, (s.grace s.pending.length).tasks.frees k = 1 := by
  obtain ⟨s, hr, hs⟩ := Transition.Reach.exists_of_run Ledger.step Settled Ledger.init
    (twoWorkers.map (fun act => .call act {}) ++
      [.call (.create 10 2) { copied := false }, .call (.dqcontext 10 1 true) {},
        .call (.nextContext 10 1) {}, .call (.exec 10 1) {}, .call (.yield 1 0) {},
        .call (.dqevent 10 false) {}, .call (.dqevent 10 true) {}, .call (.delete 10 1) {},
        .call (.exec 10 2) {}, .call (.exit 2) { event := false }, .call (.exit 2) {}, .grace 1,
        .release [1] [11, 10] []])
    (fun s => s.opened = false ∧ s.mem.next = 10 ∧ s.tasks.next = 4) (by decide +kernel)
  obtain ⟨hbad, hfreed⟩ := release_frees_once s hr
  obtain ⟨hmem, htasks⟩ := hfreed hs.1
  exact ⟨s, hr, hs, hbad, hmem, htasks⟩

/-- `ums_complist_init` takes the error of a failed `IDR_L_ALLOC` for an id, and
`create_ums_complist` returns 0 with it. The list is in no table, and nobody ever frees it. -/
theorem create_without_id_leaks :
    ∃ s, Transition.Reach Ledger.step (fun _ _ => True) Ledger.init s ∧ s.opened = false ∧
      s.mem.next = 1 ∧ s.pending = [] ∧ s.mem.frees 0 = 0 :=
  Transition.Reach.exists_of_run Ledger.step (fun _ _ => True) Ledger.init
    [.call (.create 10 1) { id := false }, .release [] [] []] _ (by decide +kernel)

end Ledger

end LinuxUms
