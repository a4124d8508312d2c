import LinuxUms.Calls

/-! What a guarded call does to a device that is in order. Every call either changes nothing,
for one of the reasons for which the source returns early, or it has the one effect that its
constructor writes out. -/
namespace LinuxUms

open KernelList

/-- The lists after a put on the one that has become `o`. -/
def putList (L : ListId → Option ListRec) (l : ListId) (o : ListRec) : ListId → Option ListRec :=
  if o.refcount - 1 = 0 then Function.update L l none
  else Function.update L l (some { o with refcount := o.refcount - 1 })

namespace IoState

/-- The device after a worker has been put at the tail of list `l`, which held `q`. -/
def queued (s : IoState) (l : ListId) (t : Pid) (q : List Node) (h : Heap Node) : IoState :=
  { s with
    heap := h
    rings := Function.update (Function.update s.rings (.context t) none) (.head l)
      (some (q ++ [.context t])) }

/-- The device after the first context behind `a` has been taken, with `m` left behind it. -/
def taken (s : IoState) (a : Node) (c : Pid) (m : List Node) (h : Heap Node) : IoState :=
  { s with
    heap := h
    rings := Function.update (Function.update s.rings a (some [])) (.context c) (some m) }

inductive Effect (s : IoState) : IoAct → IoState → Prop where
  -- the lists
  | created (t l) (hl : s.list l = none) : Effect s (.create t l) (s.createUmsComplist l)
  | deleteUnknown (t l) (hl : s.list l = none) : Effect s (.delete t l) s
  | deleted (t l o) (hl : s.list l = some o) (ho : o.deleted = false) :
    Effect s (.delete t l) (s.putUmsComplist l { o with deleted := true })
  -- the enters
  | reenteredWorker (t l node zero) (hw : s.worker t ≠ none) :
    Effect s (.enterWorker t l node zero) s
  | enteredWorker (t l node zero o q h) (hw : s.worker t = none) (hl : s.list l = some o)
    (hq : s.rings (.head l) = some q) :
    Effect s (.enterWorker t l node zero) ({ s.getUmsComplist l o (.worker t) with
      worker := Function.update s.worker t
        (some ⟨⟨.idle, if zero then .null else .junk, 0⟩, some l⟩)
      asleep := Function.update s.asleep t (some .enterWorker) }.queued l t q h)
  | reenteredScheduler (t l) (hs : s.scheduler t ≠ none) : Effect s (.enterScheduler t l) s
  | enteredScheduler (t l o) (hs : s.scheduler t = none) (hl : s.list l = some o) :
    Effect s (.enterScheduler t l) { s.getUmsComplist l o (.scheduler t) with
      scheduler := Function.update s.scheduler t (some ⟨⟨.running, .junk, 0⟩, some l,
        enqueueUmsSchedEvent [] .schedulerStartup eventAddTail⟩) }
  -- batches
  | dequeueRefused (t l copied) (h : s.list l = none ∨ s.scheduler t = none) :
    Effect s (.dqcontext t l copied) s
  | dequeued (t l c m h) (hl : s.list l ≠ none) (hs : s.scheduler t ≠ none)
    (hq : s.rings (.head l) = some (.context c :: m))
    (ht : takeFirst s.heap (.head l) = some (.context c, h)) :
    Effect s (.dqcontext t l true) (s.taken (.head l) c m h)
  | putBack (t l c m h) (hl : s.list l ≠ none) (hs : s.scheduler t ≠ none)
    (hq : s.rings (.head l) = some (.context c :: m)) :
    Effect s (.dqcontext t l false) { s with
      heap := h
      rings := Function.update (Function.update s.rings (.context c) none) (.head l)
        (some [.context c]) }
  | nextUnknown (t c) (hw : s.worker c = none) : Effect s (.nextContext t c) s
  | nextEnd (t c) (hw : s.worker c ≠ none) (he : listEmpty s.heap (.context c) = true) :
    Effect s (.nextContext t c) s
  | nextTaken (t c d m h) (hw : s.worker c ≠ none)
    (hk : s.rings (.context c) = some (.context d :: m))
    (ht : takeFirst s.heap (.context c) = some (.context d, h)) :
    Effect s (.nextContext t c) (s.taken (.context c) d m h)
  -- the switches between a scheduler and a worker
  | execRefused (t w) (h : s.worker w = none ∨ s.scheduler t = none) : Effect s (.exec t w) s
  | executed (t w x y) (hx : s.worker w = some x) (hi : x.context.state = .idle)
    (hr : s.rings (.context w) = some []) (hy : s.scheduler t = some y) :
    Effect s (.exec t w) { s with
      worker := Function.update s.worker w
        (some { x with context := { x.context with parent := .context t, state := .running } })
      scheduler := Function.update s.scheduler t (some { y with context :=
        { y.context with switches := y.context.switches + 1, state := .idle } })
      asleep := Function.update (Function.update s.asleep t (some (.exec w))) w none }
  | yieldRefused (t args) (hw : s.worker t = none) : Effect s (.yield t args) s
  | yielded (t args p n l y o q h)
    (hw : s.worker t = some ⟨⟨.running, .context p, n⟩, some l⟩)
    (hp : s.asleep p = some (.exec t)) (hy : s.scheduler p = some y) (hl : s.list l = some o)
    (hq : s.rings (.head l) = some q) (hr : s.rings (.context t) = some []) :
    Effect s (.yield t args) (({ s with
      worker := Function.update s.worker t (some ⟨⟨.idle, .context p, n + 1⟩, some l⟩)
      asleep := Function.update s.asleep t (some .yield) }.notify p y (.threadYield t args)
        (.context t)).queued l t q h)
  | exitRefused (t) (hw : s.worker t = none) : Effect s (.exit t) s
  | exited (t p n l y o) (hw : s.worker t = some ⟨⟨.running, .context p, n⟩, some l⟩)
    (hp : s.asleep p = some (.exec t)) (hy : s.scheduler p = some y) (hl : s.list l = some o)
    (hr : s.rings (.context t) = some []) :
    Effect s (.exit t) ({ s.notify p y (.threadTerminated t) y.context.parent with
      worker := Function.update s.worker t none }.putUmsComplist l
        { o with holders := o.holders.erase (.worker t) })
  -- events
  | noEvents (t copied) (hs : s.scheduler t = none) : Effect s (.dqevent t copied) s
  | event (t copied x l e q) (hs : s.scheduler t = some ⟨x, l, e :: q⟩) :
    Effect s (.dqevent t copied) { s with
      scheduler := Function.update s.scheduler t
        (some ⟨x, l, if copied then q else enqueueUmsSchedEvent q e eventAddHead⟩) }

variable {s : IoState} {t : Pid} {l : ListId}

-- A put changes the list, and takes away the ring of a list that it frees.

@[simp]
theorem putUmsComplist_heap (o : ListRec) : (s.putUmsComplist l o).heap = s.heap := by
  unfold putUmsComplist
  split <;> rfl

@[simp]
theorem putUmsComplist_worker (o : ListRec) : (s.putUmsComplist l o).worker = s.worker := by
  unfold putUmsComplist
  split <;> rfl

@[simp]
theorem putUmsComplist_scheduler (o : ListRec) :
    (s.putUmsComplist l o).scheduler = s.scheduler := by
  unfold putUmsComplist
  split <;> rfl

@[simp]
theorem putUmsComplist_asleep (o : ListRec) : (s.putUmsComplist l o).asleep = s.asleep := by
  unfold putUmsComplist
  split <;> rfl

@[simp]
theorem putUmsComplist_list (o : ListRec) : (s.putUmsComplist l o).list = putList s.list l o := by
  unfold putUmsComplist putList
  split <;> rfl

@[simp]
theorem putUmsComplist_context (o : ListRec) (c : Pid) :
    (s.putUmsComplist l o).rings (.context c) = s.rings (.context c) := by
  unfold putUmsComplist
  split
  · simp
  · rfl

theorem of_putUmsComplist_rings (o : ListRec) (n : Node) (k : List Node)
    (h : (s.putUmsComplist l o).rings n = some k) : s.rings n = some k := by
  unfold putUmsComplist at h
  split at h
  · exact (of_update_none h).2
  · exact h

/-- A worker that makes a call runs for a scheduler that waits for it, and is attached to a
list and linked nowhere. -/
theorem Inv.caller (hi : s.Inv) (ha : s.asleep t = none) (w : Worker) (hw : s.worker t = some w) :
    ∃ p n l y o, w = ⟨⟨.running, .context p, n⟩, some l⟩ ∧ s.asleep p = some (.exec t) ∧
      s.scheduler p = some y ∧ s.list l = some o ∧ s.rings (.context t) = some [] := by
  obtain ⟨⟨st, pa, n⟩, cl⟩ := w
  obtain ⟨hrun, p, hp, hpa, hps⟩ := hi.threads.caller _ hw ha
  obtain ⟨l, o, hl, ho, -⟩ := hi.holders.holder t _ hw
  obtain ⟨y, hy⟩ := Option.ne_none_iff_exists'.mp hps
  simp only at hrun hp hl
  subst hrun hp hl
  exact ⟨p, n, l, y, o, rfl, hpa, hy, ho, hi.rings.running t _ hw rfl⟩

theorem Inv.head_some (hi : s.Inv) (hl : s.list l ≠ none) : ∃ q, s.rings (.head l) = some q :=
  Option.ne_none_iff_exists'.mp (fun he => hl ((hi.rings.head l).mp he))

theorem addTail_eq (r : Node → Option (List Node)) (hf : RingFamily s.heap r (fun _ => none))
    (q : List Node) (hq : r (.head l) = some q) (hs : s.rings (.head l) = some q)
    (ht : Loose r (.context t)) : ∃ h, s.addTail l t = s.queued l t q h := by
  obtain ⟨h, hadd, -⟩ := hf.listAddTail (.head l) (.context t) q hq rfl ht (by simp)
  have hop : umsCompletionListAdd s.heap l t complistAddTail = some h := hadd
  exact ⟨h, by simp [addTail, hop, hs, queued]⟩

theorem Inv.enterWorker_effect (hi : s.Inv) (node : Links Node) (zero : Bool)
    (hl : s.list l ≠ none) :
    Effect s (.enterWorker t l node zero) (s.enterUmsWorkerMode t l node zero) := by
  unfold enterUmsWorkerMode
  split
  · rename_i hw
    exact .reenteredWorker t l node zero (by simpa [Option.isSome_iff_ne_none] using hw)
  · rename_i hw
    have hw : s.worker t = none := by simpa using hw
    obtain ⟨o, ho⟩ := Option.ne_none_iff_exists'.mp hl
    obtain ⟨q, hq⟩ := hi.head_some hl
    obtain ⟨hr, hloose⟩ := hi.rings.renew hw node
    simp only [ho]
    obtain ⟨h, hadd⟩ := addTail_eq (s := { s.getUmsComplist l o (.worker t) with
        heap := Function.update s.heap (.context t) node
        worker := Function.update s.worker t
          (some ⟨⟨.idle, if zero then .null else .junk, 0⟩, some l⟩)
        asleep := Function.update s.asleep t (some .enterWorker) }) _ hr.family q
      (by rw [Function.update_of_ne (by simp)]; exact hq) hq hloose
    rw [hadd]
    exact .enteredWorker t l node zero o q h hw ho hq

theorem Inv.dqcontext_effect (hi : s.Inv) (copied : Bool) (s' : IoState)
    (h : s.umsComplistDqcontext t l copied = some s') : Effect s (.dqcontext t l copied) s' := by
  unfold umsComplistDqcontext at h
  split at h
  · rename_i hno
    obtain rfl := Option.some.inj h
    exact .dequeueRefused t l copied (by simpa using hno)
  · rename_i hsome
    obtain ⟨hl, hs⟩ : s.list l ≠ none ∧ s.scheduler t ≠ none := by simpa using hsome
    split at h
    · cases h
    · rename_i hne
      obtain rfl := Option.some.inj h
      obtain ⟨q, hq⟩ := hi.head_some hl
      obtain ⟨c, w, m, h', rfl, hw, -, htake⟩ := hi.first _ q hq (Bool.not_eq_true _ ▸ hne)
      have hop : doDequeueUmsComplistContext s.heap l = some (.context c, h') := htake
      have hr := hi.rings.take (.head l) c m hq h' htake
      simp only [IoState.takeBatch, hop, hq, Option.getD_some, List.tail_cons]
      cases copied with
      | true => exact .dequeued t l c m h' hl hs hq htake
      | false =>
        have hhead : Function.update (Function.update s.rings (.head l) (some [])) (.context c)
            (some m) (.head l) = some [] := by
          rw [Function.update_of_ne (by simp), Function.update_self]
        obtain ⟨h₂, hadd, -⟩ := ring_listAdd h' (.head l) (.context c) []
          (hr.family.ring _ _ hhead rfl) (by simp)
        have hop' : umsCompletionListAdd h' l c complistAddHead = some h₂ := hadd
        have hput := Effect.putBack (s := s) t l c m h₂ hl hs hq
        simp only [hop', Bool.false_eq_true, if_false]
        rw [Function.update_idem, Function.update_comm (by simp), Function.update_idem,
          Function.update_comm (by simp)]
        exact hput

theorem Inv.nextContext_effect (hi : s.Inv) (c : Pid)
    (hok : Guarded s (.nextContext t c)) :
    Effect s (.nextContext t c) (s.umsComplistNextContext c) := by
  unfold umsComplistNextContext
  split
  · rename_i hw
    exact .nextUnknown t c (by simpa using hw)
  · rename_i hw
    have hw : s.worker c ≠ none := by simpa using hw
    by_cases he : listEmpty s.heap (.context c) = true
    · simp only [LinuxUms.umsComplistNextContext, he, if_true]
      exact .nextEnd t c hw he
    · have hne := (hok.resolve_left hw).resolve_left he
      cases hk : s.rings (.context c) with
      | none =>
        rw [hk] at hne
        exact absurd rfl hne
      | some k =>
        obtain ⟨d, w, m, h', rfl, -, -, htake⟩ := hi.first _ k hk (Bool.not_eq_true _ ▸ he)
        simp only [LinuxUms.umsComplistNextContext, he, htake, Option.map_some]
        exact .nextTaken t c d m h' hw hk htake

theorem Inv.exec_effect (hi : s.Inv) (w : Pid)
    (hok : ∀ x ∈ s.worker w, x.context.state = .idle ∧ listEmpty s.heap (.context w) = true) :
    Effect s (.exec t w) (s.execUmsContext t w) := by
  unfold execUmsContext
  cases hx : s.worker w with
  | none => exact .execRefused t w (Or.inl hx)
  | some x =>
    cases hy : s.scheduler t with
    | none => exact .execRefused t w (Or.inr hy)
    | some y =>
      obtain ⟨hidle, he⟩ := hok x hx
      exact .executed t w x y hx hidle (hi.rings.selfLinked x hx he) hy

theorem Inv.yield_effect (hi : s.Inv) (ha : s.asleep t = none) (args : UserPtr) :
    Effect s (.yield t args) (s.umsWorkerYield t args) := by
  cases hw : s.worker t with
  | none => simpa [umsWorkerYield, hw] using Effect.yieldRefused t args hw
  | some w =>
    obtain ⟨p, n, l, y, o, rfl, hp, hy, hl, hr⟩ := hi.caller ha w hw
    obtain ⟨q, hq⟩ := hi.head_some (l := l) (by simp [hl])
    obtain ⟨h, hadd⟩ := addTail_eq (s := { s with
      worker := Function.update s.worker t (some ⟨⟨.idle, .context p, n + 1⟩, some l⟩)
      asleep := Function.update s.asleep t (some .yield) }.notify p y (.threadYield t args)
        (.context t)) s.rings hi.rings.family q hq hq (hi.rings.alone hr)
    simp only [umsWorkerYield, hw, hy, hl, hadd]
    exact .yielded t args p n l y o q h hw hp hy hl hq hr

theorem Inv.exit_effect (hi : s.Inv) (ha : s.asleep t = none) :
    Effect s (.exit t) (s.umsWorkerEnd t) := by
  cases hw : s.worker t with
  | none => simpa [umsWorkerEnd, hw] using Effect.exitRefused t hw
  | some w =>
    obtain ⟨p, n, l, y, o, rfl, hp, hy, hl, hr⟩ := hi.caller ha w hw
    simp only [umsWorkerEnd, hw, hy, hl]
    exact .exited t p n l y o hw hp hy hl hr

/-- The calls of a device in order, by their effects. -/
theorem Inv.effect (hi : s.Inv) (act : IoAct) (hok : Guarded s act) (s' : IoState)
    (h : s.step act = some s') : s.asleep act.caller = none ∧ Effect s act s' := by
  unfold IoState.step at h
  split at h
  · cases h
  · -- a thread that sleeps in a call makes no other
    rename_i hawake
    have ha : s.asleep act.caller = none := not_not.mp hawake
    refine ⟨ha, ?_⟩
    cases act with
    | create t l =>
      simp only at h
      split at h
      · rename_i hl
        exact Option.some.inj h ▸ .created t l hl.2
      · cases h
    | delete t l =>
      obtain rfl := Option.some.inj h
      unfold umsComplistDelete
      cases hl : s.list l with
      | none => exact .deleteUnknown t l hl
      | some o => exact .deleted t l o hl (hok o hl)
    | enterWorker t l node zero => exact Option.some.inj h ▸ hi.enterWorker_effect node zero hok
    | enterScheduler t l =>
      obtain rfl := Option.some.inj h
      obtain ⟨o, ho⟩ := Option.ne_none_iff_exists'.mp hok
      unfold enterUmsSchedulerMode
      split
      · rename_i hs
        exact .reenteredScheduler t l (by simpa [Option.isSome_iff_ne_none] using hs)
      · rename_i hs
        simp only [ho]
        exact .enteredScheduler t l o (by simpa using hs) ho
    | dqcontext t l copied => exact hi.dqcontext_effect copied s' h
    | nextContext t c => exact Option.some.inj h ▸ hi.nextContext_effect c hok
    | exec t w => exact Option.some.inj h ▸ hi.exec_effect w hok
    | yield t args => exact Option.some.inj h ▸ hi.yield_effect ha args
    | exit t => exact Option.some.inj h ▸ hi.exit_effect ha
    | dqevent t copied =>
      simp only [umsSchedDqevent] at h
      split at h
      · rename_i hs
        exact Option.some.inj h ▸ .noEvents t copied hs
      · cases h
      · rename_i hs
        exact Option.some.inj h ▸ .event t copied _ _ _ _ hs

/-- The worker table gets an entry by an enter and loses it by an end. -/
theorem Inv.worker_none_iff (hi : s.Inv) (act : IoAct) (hok : Guarded s act) (s' : IoState)
    (h : s.step act = some s') (w : Pid) (henter : ∀ l node zero, act ≠ .enterWorker w l node zero)
    (hexit : act ≠ .exit w) : s'.worker w = none ↔ s.worker w = none := by
  obtain ⟨-, heff⟩ := hi.effect act hok s' h
  cases heff with
  | deleted t l o hl ho => simp
  | enteredWorker t l node zero o q heap hw hl hq =>
    have hne : w ≠ t := by
      rintro rfl
      exact henter l node zero rfl
    simp [queued, Function.update_of_ne hne]
  | executed t u x y hx hidle hr hy =>
    by_cases hne : w = u
    · simp [hne, hx]
    · simp [Function.update_of_ne hne]
  | yielded t args p n l y o q heap hw hp hy hl hq hr =>
    by_cases hne : w = t
    · simp [queued, notify, hne, hw]
    · simp [queued, notify, Function.update_of_ne hne]
  | exited t p n l y o hw hp hy hl hr =>
    have hne : w ≠ t := by
      rintro rfl
      exact hexit rfl
    simp [Function.update_of_ne hne]
  | _ => exact Iff.rfl

/-- The scheduler table gets an entry by an enter and never loses it. -/
theorem Inv.scheduler_none_iff (hi : s.Inv) (act : IoAct) (hok : Guarded s act) (s' : IoState)
    (h : s.step act = some s') (p : Pid) (henter : ∀ l, act ≠ .enterScheduler p l) :
    s'.scheduler p = none ↔ s.scheduler p = none := by
  obtain ⟨-, heff⟩ := hi.effect act hok s' h
  cases heff with
  | deleted t l o hl ho => simp
  | enteredScheduler t l o hs hl =>
    have hne : p ≠ t := by
      rintro rfl
      exact henter l rfl
    simp [Function.update_of_ne hne]
  | executed t u x y hx hidle hr hy =>
    by_cases hne : p = t
    · simp [hne, hy]
    · simp [Function.update_of_ne hne]
  | yielded t args q n l y o k heap hw hp hy hl hq hr =>
    by_cases hne : p = q
    · simp [queued, notify, hne, hy]
    · simp [queued, notify, Function.update_of_ne hne]
  | exited t q n l y o hw hp hy hl hr =>
    by_cases hne : p = q
    · simp [notify, hne, hy]
    · simp [notify, Function.update_of_ne hne]
  | event t copied x l e q hs =>
    by_cases hne : p = t
    · simp [hne, hs]
    · simp [Function.update_of_ne hne]
  | _ => exact Iff.rfl

end IoState

end LinuxUms
