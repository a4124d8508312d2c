import LinuxUms.EventStoreRelation

namespace LinuxUms

open KernelList StoreProgram

/-- The queue after a step of a thread that adds a node. -/
def Enqueuing.adds (flags : ℕ) (ns : List ℕ) : Enqueuing → List ℕ
  | .ready a => if flags = eventAddTail then ns ++ [a] else a :: ns
  | .body _ | .wake => ns

section Enqueue

variable {s s' s₁ : EventStore} {ns : List ℕ} {t : Option Pid} {flags : ℕ} {x : Enqueuing}
  {x' : Option Enqueuing}

theorem wakeUpAll_eq (s : EventStore) : s.wakeUpAll =
    { s with task := if s.queued then .running else s.task, queued := false } := by
  unfold EventStore.wakeUpAll
  cases hq : s.queued with
  | true => rfl
  | false =>
    show s = { s with queued := false }
    rw [← hq]

theorem enqueue_cases (hH : HeapOk s ns) (hprog : s.prog t = x.prog)
    (he : s.enqueue t flags x = some (s₁, x')) :
    (∃ a, x = .ready a ∧ s.lock = none ∧ s₁ = { s with
        lock := some t
        enqueued := if flags = eventAddTail then s.enqueued ++ [s.event a] else s.enqueued } ∧
      x' = some (.body (enqueueUmsSchedEventProg a flags))) ∨
    (∃ p p' m, x = .body p ∧ p.step (cells s.heap) = some (p', m) ∧
      s₁ = { s with heap := ofCells m } ∧ x' = some (.body p')) ∨
    (∃ r, x = .body (.ret r) ∧ s₁ = { s with lock := none } ∧ x' = some .wake) ∨
    (x = .wake ∧ x' = none ∧ s₁ = { s with
      task := if s.queued then .running else s.task
      queued := false }) := by
  cases x with
  | ready a =>
    simp only [EventStore.enqueue, Option.ite_none_right_eq_some, Option.some.injEq,
      Prod.mk.injEq] at he
    obtain ⟨hl, rfl, rfl⟩ := he
    exact Or.inl ⟨a, rfl, hl, rfl, rfl⟩
  | body p =>
    simp only [EventStore.enqueue] at he
    split at he
    · rename_i p' m hs
      obtain ⟨rfl, rfl⟩ := Prod.mk.inj (Option.some.inj he)
      exact Or.inr (Or.inl ⟨p, p', m, rfl, hs, rfl, rfl⟩)
    · rename_i hs
      obtain ⟨r, rfl⟩ := hH.ret_of_stuck hprog hs
      obtain ⟨rfl, rfl⟩ := Prod.mk.inj (Option.some.inj he)
      exact Or.inr (Or.inr (Or.inl ⟨r, rfl, rfl, rfl⟩))
  | wake =>
    obtain ⟨rfl, rfl⟩ := Prod.mk.inj (Option.some.inj he)
    exact Or.inr (Or.inr (Or.inr ⟨rfl, rfl, wakeUpAll_eq s⟩))

/-- Thread `u` is at the same place. -/
def SameAt (s s' : EventStore) (u : Option Pid) : Prop :=
  s'.prog u = s.prog u ∧ s'.holds u = s.holds u ∧ s'.taking u = s.taking u

theorem sameAt_of_places {u : Option Pid} (hpost : ∀ v, u = some v → s'.post v = s.post v)
    (hsched : u = none → s'.sched = s.sched) : SameAt s s' u := by
  cases u with
  | none => simp only [SameAt, EventStore.prog, EventStore.holds, EventStore.taking, hsched rfl,
      and_self]
  | some v => simp only [SameAt, EventStore.prog, EventStore.holds, EventStore.taking, hpost v rfl,
      and_self]

/-- A step of a thread that adds a node: the node is in the queue from the lock on. -/
theorem enqueue_sim (s' : EventStore) (hO : NodesOwned s ns) (hH : HeapOk s ns)
    (hprog : s.prog t = x.prog) (hheld : s.holds t = x.held) (htaking : s.taking t = false)
    (hflags : flags = eventAddTail ∨ flags = eventAddHead)
    (he : s.enqueue t flags x = some (s₁, x')) (hheap : s'.heap = s₁.heap)
    (hlive : s'.live = s₁.live) (hlock : s'.lock = s₁.lock)
    (hprog' : s'.prog t = x'.bind Enqueuing.prog) (hheld' : s'.holds t = x'.bind Enqueuing.held)
    (htaking' : s'.taking t = false) (hothers : ∀ u, u ≠ t → SameAt s s' u) :
    NodesOwned s' (x.adds flags ns) ∧ HeapOk s' (x.adds flags ns) := by
  have hprogs (u : Option Pid) (hu : u ≠ t) : s'.prog u = s.prog u := (hothers u hu).1
  have hholds (u : Option Pid) (hu : u ≠ t) : s'.holds u = s.holds u := (hothers u hu).2.1
  rcases enqueue_cases hH hprog he with ⟨a, rfl, hfree, rfl, rfl⟩ | ⟨p, p', m, rfl, hs, rfl, rfl⟩ |
    ⟨r, rfl, rfl, rfl⟩ | ⟨rfl, rfl, rfl⟩
  · have ha : a ∉ ns := hO.held t a hheld
    have hring := hH.unlocked hfree
    rcases hflags with rfl | rfl
    · obtain ⟨m, hex, hring', hw⟩ := enqueue_tail hring ha
      refine ⟨hO.give hlive hheld hheld' hholds ?_ (by simp [Enqueuing.adds, or_comm]), ?_⟩
      · simpa [Enqueuing.adds] using hO.nodup.concat ha
      · refine hH.spinLock hfree hheap hlock hprog' hprogs hex ?_ hw
        rw [htaking']
        exact ⟨rfl, List.append_ne_nil_of_right_ne_nil ns (List.cons_ne_nil a []), hring'⟩
    · obtain ⟨m, hex, hring', hw⟩ := enqueue_head hring ha
      refine ⟨hO.give hlive hheld hheld' hholds (List.nodup_cons.mpr ⟨ha, hO.nodup⟩) ?_, ?_⟩
      · intro b
        show b ∈ a :: ns ↔ _
        rw [List.mem_cons]
      · refine hH.spinLock hfree hheap hlock hprog' hprogs hex ?_ hw
        rw [htaking']
        exact ⟨rfl, List.cons_ne_nil a ns, hring'⟩
  · have hsame (u : Option Pid) : s'.holds u = s.holds u := by
      by_cases hu : u = t
      · rw [hu, hheld', hheld]
        rfl
      · exact hholds u hu
    exact ⟨hO.congr hlive hsame,
      hH.access hprog hs hheap hlock hprog' hprogs (htaking'.trans htaking.symm)⟩
  · have hsame (u : Option Pid) : s'.holds u = s.holds u := by
      by_cases hu : u = t
      · rw [hu, hheld', hheld]
        rfl
      · exact hholds u hu
    have hl := hH.leaves hprog
    rw [htaking] at hl
    exact ⟨hO.congr hlive hsame, hH.spinUnlock hprog hl.2.2 hheap hlock hprog' hprogs⟩
  · have hsame (u : Option Pid) : s'.holds u = s.holds u ∧ s'.prog u = s.prog u := by
      by_cases hu : u = t
      · rw [hu, hheld', hheld, hprog', hprog]
        exact ⟨rfl, rfl⟩
      · exact ⟨hholds u hu, hprogs u hu⟩
    refine ⟨hO.congr hlive (fun u => (hsame u).1),
      hH.congr hheap hlock (fun u => (hsame u).2) (fun u => ?_)⟩
    by_cases hu : u = t
    · rw [hu, htaking', htaking]
    · exact (hothers u hu).2.2

end Enqueue

section Steps

variable {param : UserPtr} {s s' : EventStore} {ns ns' : List ℕ}

/-- What a step is when each list operation is one step. -/
def Mimics (param : UserPtr) (s : EventStore) (ns : List ℕ) (s' : EventStore) (ns' : List ℕ) :
    Prop :=
  s'.sys ns' = s.sys ns ∨ ∃ b, (s.sys ns).step param b = some (s'.sys ns')

/-- A step of a worker in `enqueue_ums_sched_event`. -/
theorem EventSim.run (h : EventSim s ns) {t : Pid} {x : Enqueuing} (hx : s.post t = some x)
    {s₁ : EventStore} {x' : Option Enqueuing}
    (he : s.enqueue (some t) eventAddTail x = some (s₁, x'))
    (hs' : s' = { s₁ with post := Function.update s₁.post t x' }) :
    EventSim s' (x.adds eventAddTail ns) ∧ Mimics param s ns s' (x.adds eventAddTail ns) := by
  have hprog : s.prog (some t) = x.prog := by rw [EventStore.prog, hx]; rfl
  have hheld : s.holds (some t) = x.held := by rw [EventStore.holds, hx]; rfl
  have hself : s'.post t = x' := by rw [hs']; exact Function.update_self _ _ _
  have hcases := enqueue_cases h.heap hprog he
  have hsame : s₁.post = s.post ∧ s₁.sched = s.sched ∧ s₁.event = s.event ∧ s₁.fault = s.fault ∧
      s₁.executed = s.executed := by
    rcases hcases with ⟨a, -, -, rfl, -⟩ | ⟨p, p', m, -, -, rfl, -⟩ | ⟨r, -, rfl, -⟩ |
      ⟨-, -, rfl⟩ <;> exact ⟨rfl, rfl, rfl, rfl, rfl⟩
  obtain ⟨hpost, hsched, hevent, hfault, hexec⟩ := hsame
  have hother (u : Pid) (hu : u ≠ t) : s'.post u = s.post u := by
    rw [hs', ← hpost]
    exact Function.update_of_ne hu _ _
  have hsched' : s'.sched = s.sched := by rw [hs']; exact hsched
  obtain ⟨hO, hH⟩ := enqueue_sim s' h.owned h.heap hprog hheld rfl (Or.inl rfl) he (by rw [hs'])
    (by rw [hs']) (by rw [hs']) (by rw [EventStore.prog, hself])
    (by rw [EventStore.holds, hself]) rfl (fun u hu => sameAt_of_places
      (fun v hv => hother v (fun hvt => hu (by rw [hv, hvt]))) (fun _ => hsched'))
  have hwait : s'.task = .interruptible → s.task = .interruptible ∧ (x = .wake → s.queued = false) ∧
      (x ≠ .wake → s'.queued = s.queued) := by
    intro hi
    rw [hs'] at hi ⊢
    rcases hcases with ⟨a, rfl, -, rfl, -⟩ | ⟨p, p', m, rfl, -, rfl, -⟩ | ⟨r, rfl, rfl, -⟩ |
      ⟨rfl, -, rfl⟩
    · exact ⟨hi, (fun hw => by cases hw), fun _ => rfl⟩
    · exact ⟨hi, (fun hw => by cases hw), fun _ => rfl⟩
    · exact ⟨hi, (fun hw => by cases hw), fun _ => rfl⟩
    · cases hq : s.queued with
      | true =>
        rw [hq] at hi
        cases hi
      | false =>
        rw [hq] at hi
        exact ⟨hi, fun _ => rfl, fun hne => absurd rfl hne⟩
  have hexecuted : s'.executed = true := by
    rw [hs']
    exact hexec.trans (h.ran t x hx)
  refine ⟨⟨?_, hO, hH, fun _ _ _ => hexecuted, fun a hb => ?_, fun e a hb => ?_, fun hp hi => ?_,
    fun hp hi => ?_⟩, ?_⟩
  · rw [hs']
    exact hfault.trans h.fault
  · rw [hsched'] at hb
    rw [hs']
    exact (congrFun hevent a).trans (h.starting a hb)
  · rw [hsched'] at hb
    rw [hs']
    exact (congrFun hevent a).trans (h.undelivered e a hb)
  · rw [hsched'] at hp
    obtain ⟨hi', hno, hyes⟩ := hwait hi
    have hq := h.waiting hp hi'
    by_cases hw : x = .wake
    · rw [hno hw] at hq
      cases hq
    · rw [hyes hw]
      exact hq
  · rw [hsched'] at hp
    obtain ⟨hi', hno, -⟩ := hwait hi
    have hq := h.waiting (Or.inr hp) hi'
    -- whoever is not at the wake-up yet will come there
    rcases hcases with ⟨a, rfl, -, -, rfl⟩ | ⟨p, p', m, rfl, -, -, rfl⟩ | ⟨r, rfl, -, rfl⟩ |
      ⟨rfl, -, -⟩
    · exact Or.inr ⟨t, _, hself, fun _ hb => by cases hb⟩
    · exact Or.inr ⟨t, _, hself, fun _ hb => by cases hb⟩
    · exact Or.inr ⟨t, _, hself, fun _ hb => by cases hb⟩
    · rw [hno rfl] at hq
      cases hq
  · rcases hcases with ⟨a, rfl, -, rfl, -⟩ | ⟨p, p', m, rfl, -, rfl, -⟩ | ⟨r, rfl, rfl, -⟩ |
      ⟨rfl, -, rfl⟩
    · refine Or.inr ⟨.post (s.event a), ?_⟩
      have hran : (s.sys ns).executed = true := h.ran t _ hx
      rw [hs', EventSys.step, if_pos hran]
      simp [EventStore.sys, Enqueuing.adds, enqueueUmsSchedEvent, eventAddTail, eventAddHead]
    · exact Or.inl (by rw [hs']; rfl)
    · exact Or.inl (by rw [hs']; rfl)
    · exact Or.inl (by rw [hs']; rfl)

theorem SchedPlace.not_waits {y : SchedPlace} (h : y.waits = false) :
    ¬(y = .test false ∨ y = .sleep) := by
  rintro (rfl | rfl) <;> cases h

/-- A step of the scheduler thread in `enqueue_ums_sched_event`. -/
theorem EventSim.enqueueSelf (h : EventSim s ns) {x : Enqueuing} {flags : ℕ}
    (hflags : flags = eventAddTail ∨ flags = eventAddHead) (hprog : s.prog none = x.prog)
    (hheld : s.holds none = x.held) (htaking : s.taking none = false) {s₁ : EventStore}
    {x' : Option Enqueuing} (he : s.enqueue none flags x = some (s₁, x')) {y : SchedPlace}
    (hyprog : y.prog = x'.bind Enqueuing.prog) (hyheld : y.held = x'.bind Enqueuing.held)
    (hytaking : y.taking = false) (hystart : ∀ a, y ≠ .startup (.ready a))
    (hyback : ∀ e a, y ≠ .back e (.ready a)) (hywaits : y.waits = false)
    (hs' : s' = { s₁ with sched := y }) :
    EventSim s' (x.adds flags ns) := by
  have hcases := enqueue_cases h.heap hprog he
  have hsame : s₁.post = s.post ∧ s₁.fault = s.fault ∧ s₁.executed = s.executed := by
    rcases hcases with ⟨a, -, -, rfl, -⟩ | ⟨p, p', m, -, -, rfl, -⟩ | ⟨r, -, rfl, -⟩ |
      ⟨-, -, rfl⟩ <;> exact ⟨rfl, rfl, rfl⟩
  obtain ⟨hpost, hfault, hexec⟩ := hsame
  have hsched : s'.sched = y := by rw [hs']
  obtain ⟨hO, hH⟩ := enqueue_sim s' h.owned h.heap hprog hheld htaking hflags he (by rw [hs'])
    (by rw [hs']) (by rw [hs']) (by rw [EventStore.prog, hsched, hyprog])
    (by rw [EventStore.holds, hsched, hyheld]) (by rw [EventStore.taking, hsched, hytaking])
    (fun u hu => sameAt_of_places (fun v _ => by rw [hs']; exact congrFun hpost v)
      (fun hnone => absurd hnone hu))
  refine ⟨?_, hO, hH, fun t z hz => ?_, fun a hb => ?_, fun e a hb => ?_, fun hp => ?_,
    fun hp => ?_⟩
  · rw [hs']
    exact hfault.trans h.fault
  · rw [hs'] at hz ⊢
    exact hexec.trans (h.ran t z ((congrFun hpost t).symm.trans hz))
  · rw [hsched] at hb
    exact absurd hb (hystart a)
  · rw [hsched] at hb
    exact absurd hb (hyback e a)
  · rw [hsched] at hp
    exact absurd hp (SchedPlace.not_waits hywaits)
  · rw [hsched] at hp
    exact absurd (Or.inr hp) (SchedPlace.not_waits hywaits)

/-- `enter_ums_scheduler_mode` queues the startup event. -/
theorem EventSim.startup (h : EventSim s ns) {x : Enqueuing} (hx : s.sched = .startup x)
    {s₁ : EventStore} {x' : Option Enqueuing}
    (he : s.enqueue none eventAddTail x = some (s₁, x'))
    (hs' : s' = { s₁ with sched := x'.elim .loop .startup }) :
    EventSim s' (x.adds eventAddTail ns) ∧ Mimics param s ns s' (x.adds eventAddTail ns) := by
  have hprog : s.prog none = x.prog := by rw [EventStore.prog, hx]; rfl
  have hcases := enqueue_cases h.heap hprog he
  constructor
  · refine h.enqueueSelf (Or.inl rfl) hprog (by rw [EventStore.holds, hx]; rfl)
      (by rw [EventStore.taking, hx]; rfl) he ?_ ?_ ?_ ?_ ?_ ?_ hs'
    · cases x' <;> rfl
    · cases x' <;> rfl
    · cases x' <;> rfl
    · rcases hcases with ⟨a, -, -, -, rfl⟩ | ⟨p, p', m, -, -, -, rfl⟩ | ⟨r, -, -, rfl⟩ |
        ⟨-, rfl, -⟩ <;> (intro b hb; cases hb)
    · cases x' <;> (intro e b hb; cases hb)
    · cases x' <;> rfl
  · rcases hcases with ⟨a, rfl, -, rfl, rfl⟩ | ⟨p, p', m, rfl, -, rfl, rfl⟩ | ⟨r, rfl, rfl, rfl⟩ |
      ⟨rfl, rfl, rfl⟩
    · have hpc : (s.sys ns).pc = .entering := by rw [EventStore.sys, hx]; rfl
      refine Or.inr ⟨.startup, ?_⟩
      rw [hs', EventSys.step, if_pos hpc]
      simp [EventStore.sys, Enqueuing.adds, enqueueUmsSchedEvent, eventAddTail, eventAddHead,
        SchedPlace.pc, h.starting a hx]
    · exact Or.inl (by rw [hs', EventStore.sys, EventStore.sys, hx]; rfl)
    · exact Or.inl (by rw [hs', EventStore.sys, EventStore.sys, hx]; rfl)
    · exact Or.inl (by rw [hs', EventStore.sys, EventStore.sys, hx]; rfl)

/-- `ums_sched_dqevent` puts an event back that it could not copy. -/
theorem EventSim.putBack (h : EventSim s ns) {e : Event} {x : Enqueuing} (hx : s.sched = .back e x)
    {s₁ : EventStore} {x' : Option Enqueuing}
    (he : s.enqueue none eventAddHead x = some (s₁, x'))
    (hs' : s' = { s₁ with sched := x'.elim (.failed .eacces (some e)) (.back e) }) :
    EventSim s' (x.adds eventAddHead ns) ∧ Mimics param s ns s' (x.adds eventAddHead ns) := by
  have hprog : s.prog none = x.prog := by rw [EventStore.prog, hx]; rfl
  have hcases := enqueue_cases h.heap hprog he
  constructor
  · refine h.enqueueSelf (Or.inr rfl) hprog (by rw [EventStore.holds, hx]; rfl)
      (by rw [EventStore.taking, hx]; rfl) he ?_ ?_ ?_ ?_ ?_ ?_ hs'
    · cases x' <;> rfl
    · cases x' <;> rfl
    · cases x' <;> rfl
    · cases x' <;> (intro b hb; cases hb)
    · rcases hcases with ⟨a, -, -, -, rfl⟩ | ⟨p, p', m, -, -, -, rfl⟩ | ⟨r, -, -, rfl⟩ |
        ⟨-, rfl, -⟩ <;> (intro e b hb; cases hb)
    · cases x' <;> rfl
  · rcases hcases with ⟨a, rfl, -, rfl, rfl⟩ | ⟨p, p', m, rfl, -, rfl, rfl⟩ | ⟨r, rfl, rfl, rfl⟩ |
      ⟨rfl, rfl, rfl⟩
    · have hpc : (s.sys ns).pc = .putBack (s.event a) := by rw [EventStore.sys, hx]; rfl
      refine Or.inr ⟨.requeue, ?_⟩
      rw [hs', EventSys.step, hpc]
      simp [EventStore.sys, Enqueuing.adds, enqueueUmsSchedEvent, eventAddTail, eventAddHead,
        SchedPlace.pc, h.undelivered e a hx]
    · exact Or.inl (by rw [hs', EventStore.sys, EventStore.sys, hx]; rfl)
    · exact Or.inl (by rw [hs', EventStore.sys, EventStore.sys, hx]; rfl)
    · exact Or.inl (by rw [hs', EventStore.sys, EventStore.sys, hx]; rfl)

/-- The list, the nodes and the workers are as before. -/
structure SameStore (s s' : EventStore) : Prop where
  heap : s'.heap = s.heap
  event : s'.event = s.event
  live : s'.live = s.live
  lock : s'.lock = s.lock
  post : s'.post = s.post
  fault : s'.fault = s.fault
  ran : s.executed = true → s'.executed = true

/-- Two places with the same node in hand and the same program under way. -/
def SchedPlace.Alike (y y' : SchedPlace) : Prop :=
  y'.prog = y.prog ∧ y'.held = y.held ∧ y'.taking = y.taking

/-- The scheduler thread goes on, and touches neither the list nor a node. -/
theorem EventSim.setSched (h : EventSim s ns) (hsame : SameStore s s') {y y' : SchedPlace}
    (hy : s.sched = y) (hy' : s'.sched = y') (halike : y.Alike y')
    (hstart : ∀ a, y' ≠ .startup (.ready a))
    (hback : ∀ e a, y' = .back e (.ready a) → s.event a = e)
    (hwait : y' = .test false ∨ y' = .sleep → s'.task = .interruptible → s'.queued = true)
    (hasleep : y' = .sleep → s'.task = .interruptible → ns = [] ∨
      ∃ t x, s.post t = some x ∧ ∀ a, x ≠ .ready a) : EventSim s' ns := by
  subst hy hy'
  have hat (u : Option Pid) : SameAt s s' u := by
    cases u with
    | none => exact halike
    | some v => exact sameAt_of_places (fun w _ => by rw [hsame.post]) (fun hu => by cases hu)
  refine ⟨hsame.fault.trans h.fault, h.owned.congr hsame.live (fun u => (hat u).2.1),
    h.heap.congr hsame.heap hsame.lock (fun u => (hat u).1) (fun u => (hat u).2.2),
    fun t x hx => ?_, fun a ha => absurd ha (hstart a), fun e a hb => ?_, hwait, fun hp hi => ?_⟩
  · rw [hsame.post] at hx
    exact hsame.ran (h.ran t x hx)
  · rw [hsame.event]
    exact hback e a hb
  · rw [hsame.post]
    exact hasleep hp hi

/-- The scheduler thread is made runnable where it is. -/
theorem EventSim.awake (h : EventSim s ns) (hsame : SameStore s s') (hsched : s'.sched = s.sched)
    (htask : s'.task = .running) : EventSim s' ns := by
  have hat (u : Option Pid) : SameAt s s' u :=
    sameAt_of_places (fun v _ => by rw [hsame.post]) (fun _ => hsched)
  refine ⟨hsame.fault.trans h.fault, h.owned.congr hsame.live (fun u => (hat u).2.1),
    h.heap.congr hsame.heap hsame.lock (fun u => (hat u).1) (fun u => (hat u).2.2),
    fun t x hx => ?_, fun a hb => ?_, fun e a hb => ?_, fun _ hi => ?_, fun _ hi => ?_⟩
  · rw [hsame.post] at hx
    exact hsame.ran (h.ran t x hx)
  · rw [hsame.event]
    exact h.starting a (hsched ▸ hb)
  · rw [hsame.event]
    exact h.undelivered e a (hsched ▸ hb)
  · rw [htask] at hi
    cases hi
  · rw [htask] at hi
    cases hi

/-- Nothing is asked of the state at this place. -/
def SchedPlace.easy : SchedPlace → Bool
  | .startup _ | .back _ _ | .test false | .sleep => false
  | _ => true

theorem EventSim.goTo (h : EventSim s ns) (hsame : SameStore s s') {y y' : SchedPlace}
    (hy : s.sched = y) (hy' : s'.sched = y') (halike : y.Alike y') (heasy : y'.easy = true) :
    EventSim s' ns := by
  apply h.setSched hsame hy hy' halike
  · rintro a rfl
    cases heasy
  · rintro e a rfl
    cases heasy
  · rintro (rfl | rfl) <;> cases heasy
  · rintro rfl
    cases heasy

/-- At a place where nothing is asked, the nodes and the list are all that counts. -/
theorem EventSim.of_easy (hfault : s.fault = false) (howned : NodesOwned s ns)
    (hheap : HeapOk s ns) (hran : ∀ t x, s.post t = some x → s.executed = true)
    (heasy : s.sched.easy = true) : EventSim s ns := by
  refine ⟨hfault, howned, hheap, hran, fun a hb => ?_, fun e a hb => ?_, fun hb => ?_,
    fun hb => ?_⟩
  · rw [hb] at heasy
    cases heasy
  · rw [hb] at heasy
    cases heasy
  · rcases hb with hb | hb <;> (rw [hb] at heasy; cases heasy)
  · rw [hb] at heasy
    cases heasy

/-- The scheduler thread goes on inside the wait. -/
theorem EventSim.goWait (h : EventSim s ns) (hsame : SameStore s s') {y y' : SchedPlace}
    (hy : s.sched = y) (hy' : s'.sched = y') (halike : y.Alike y') (hwaits : y'.waits = true)
    (hwait : y' = .test false ∨ y' = .sleep → s'.task = .interruptible → s'.queued = true)
    (hasleep : y' = .sleep → s'.task = .interruptible → ns = [] ∨
      ∃ t x, s.post t = some x ∧ ∀ a, x ≠ .ready a) : EventSim s' ns := by
  refine h.setSched hsame hy hy' halike ?_ ?_ hwait hasleep
  · rintro a rfl
    cases hwaits
  · rintro e a rfl
    cases hwaits

/-- The test of the wait, without the lock, sees an event only if there is one in the queue. -/
theorem EventSim.ne_nil (h : EventSim s ns) (hprog : s.sched.prog = none)
    (he : listEmpty s.heap .head = false) : ns ≠ [] := by
  cases hl : s.lock with
  | none =>
    rintro rfl
    rw [(listEmpty_ring _ _ _ (h.heap.unlocked hl)).mpr rfl] at he
    cases he
  | some t =>
    obtain ⟨p, r, m, hp, -, -, hleaves⟩ := h.heap.locked t hl
    cases t with
    | none => cases hprog.symm.trans hp
    | some u => exact hleaves.2.1

/-- The test of the wait sees no event only if there is none, or a worker is about to add one. -/
theorem EventSim.nil_or_adding (h : EventSim s ns) (hprog : s.sched.prog = none)
    (he : listEmpty s.heap .head = true) :
    ns = [] ∨ ∃ t x, s.post t = some x ∧ ∀ a, x ≠ .ready a := by
  cases hl : s.lock with
  | none =>
    have hnil := (listEmpty_ring _ _ _ (h.heap.unlocked hl)).mp he
    exact Or.inl (List.map_eq_nil_iff.mp hnil)
  | some t =>
    obtain ⟨p, r, m, hp, -, -, -⟩ := h.heap.locked t hl
    cases t with
    | none => cases hprog.symm.trans hp
    | some u =>
      obtain ⟨x, hx, hxp⟩ := Option.bind_eq_some_iff.mp hp
      refine Or.inr ⟨u, x, hx, ?_⟩
      rintro a rfl
      cases hxp

/-- `wait_event_interruptible`, and what the kernel does before and after it. -/
theorem EventSim.wait (h : EventSim s ns) (hs : s.go s.sched = some s')
    (hp : s.sched = .find ∨ s.sched.waits = true ∨ s.sched = .finish) :
    EventSim s' ns ∧ Mimics param s ns s' ns := by
  have hwake (he : listEmpty s.heap .head = false) (hpc : s.sched.pc s.event = .wait)
      (hprog : s.sched.prog = none) :
      (s.sys ns).step param .wake = some { s.sys ns with pc := .test } := by
    have hq : (s.sys ns).pc = .wait ∧ (s.sys ns).eventQ ≠ [] :=
      ⟨hpc, fun hnil => h.ne_nil hprog he (List.map_eq_nil_iff.mp hnil)⟩
    rw [EventSys.step, if_pos hq]
  cases hsched : s.sched with
  | find =>
    rw [hsched] at hs
    obtain rfl := Option.some.inj hs
    refine ⟨h.goTo ⟨rfl, rfl, rfl, rfl, rfl, rfl, id⟩ hsched rfl ⟨rfl, rfl, rfl⟩ rfl,
      Or.inr ⟨.lookup, ?_⟩⟩
    have hpc : (s.sys ns).pc = .find := by rw [EventStore.sys, hsched]; rfl
    rw [EventSys.step, if_pos hpc]
    rfl
  | first =>
    rw [hsched, EventStore.go] at hs
    cases he : listEmpty s.heap .head with
    | true =>
      rw [he] at hs
      obtain rfl := Option.some.inj hs
      exact ⟨h.goTo ⟨rfl, rfl, rfl, rfl, rfl, rfl, id⟩ hsched rfl ⟨rfl, rfl, rfl⟩ rfl,
        Or.inl (by rw [EventStore.sys, EventStore.sys, hsched]; rfl)⟩
    | false =>
      rw [he] at hs
      obtain rfl := Option.some.inj hs
      exact ⟨h.goTo ⟨rfl, rfl, rfl, rfl, rfl, rfl, id⟩ hsched rfl ⟨rfl, rfl, rfl⟩ rfl,
        Or.inr ⟨.wake, hwake he (by rw [hsched]; rfl) (by rw [hsched]; rfl)⟩⟩
  | prepare =>
    rw [hsched, EventStore.go] at hs
    split at hs
    · obtain rfl := Option.some.inj hs
      exact ⟨h.goTo ⟨rfl, rfl, rfl, rfl, rfl, rfl, id⟩ hsched rfl ⟨rfl, rfl, rfl⟩ rfl,
        Or.inl (by rw [EventStore.sys, EventStore.sys, hsched]; rfl)⟩
    · obtain rfl := Option.some.inj hs
      exact ⟨h.goWait ⟨rfl, rfl, rfl, rfl, rfl, rfl, id⟩ hsched rfl ⟨rfl, rfl, rfl⟩ rfl
          (fun _ _ => rfl) (fun hb => by cases hb),
        Or.inl (by rw [EventStore.sys, EventStore.sys, hsched]; rfl)⟩
  | test interrupted =>
    rw [hsched, EventStore.go] at hs
    cases he : listEmpty s.heap .head with
    | true =>
      rw [he, if_pos rfl] at hs
      cases interrupted with
      | true => cases hs
      | false =>
        obtain rfl := Option.some.inj hs
        exact ⟨h.goWait ⟨rfl, rfl, rfl, rfl, rfl, rfl, id⟩ hsched rfl ⟨rfl, rfl, rfl⟩ rfl
          (fun _ hi => h.waiting (Or.inl hsched) hi)
          (fun _ _ => h.nil_or_adding (by rw [hsched]; rfl) he),
          Or.inl (by rw [EventStore.sys, EventStore.sys, hsched]; rfl)⟩
    | false =>
      rw [he, if_neg (by simp)] at hs
      obtain rfl := Option.some.inj hs
      exact ⟨h.goTo ⟨rfl, rfl, rfl, rfl, rfl, rfl, id⟩ hsched rfl ⟨rfl, rfl, rfl⟩ rfl,
        Or.inr ⟨.wake, hwake he (by rw [hsched]; rfl) (by rw [hsched]; rfl)⟩⟩
  | sleep =>
    rw [hsched, EventStore.go] at hs
    split at hs
    · obtain rfl := Option.some.inj hs
      exact ⟨h.goTo ⟨rfl, rfl, rfl, rfl, rfl, rfl, id⟩ hsched rfl ⟨rfl, rfl, rfl⟩ rfl,
        Or.inl (by rw [EventStore.sys, EventStore.sys, hsched]; rfl)⟩
    · cases hs
  | finish =>
    rw [hsched] at hs
    obtain rfl := Option.some.inj hs
    exact ⟨h.goTo ⟨rfl, rfl, rfl, rfl, rfl, rfl, id⟩ hsched rfl ⟨rfl, rfl, rfl⟩ rfl,
      Or.inl (by rw [EventStore.sys, EventStore.sys, hsched]; rfl)⟩
  | _ =>
    rw [hsched] at hp
    rcases hp with hp | hp | hp <;> cases hp

/-- `do_dequeue_ums_sched_event` under the lock: an event is taken when the lock is released. -/
theorem EventSim.dequeue (h : EventSim s ns) (hs : s.go s.sched = some s')
    (hp : s.sched = .lock ∨ ∃ p, s.sched = .body p) :
    ∃ ns', EventSim s' ns' ∧ Mimics param s ns s' ns' := by
  have hothers {y : SchedPlace} {l : Option (Option Pid)} {m : Heap EventNode} (u : Option Pid)
      (hu : u ≠ none) : SameAt s { s with heap := m, lock := l, sched := y } u :=
    sameAt_of_places (fun _ _ => rfl) (fun hnone => absurd hnone hu)
  have hold : s.holds none = none := by
    rcases hp with hsched | ⟨p, hsched⟩ <;> (rw [EventStore.holds, hsched]; rfl)
  -- no node changes hands unless one is taken
  have howned {y : SchedPlace} {l : Option (Option Pid)} {m : Heap EventNode}
      (hy : y.held = none) : NodesOwned { s with heap := m, lock := l, sched := y } ns := by
    refine h.owned.congr rfl fun u => ?_
    cases u with
    | none => exact hy.trans hold.symm
    | some v => rfl
  rcases hp with hsched | ⟨p, hsched⟩
  · rw [hsched, EventStore.go] at hs
    split at hs
    · rename_i hfree
      obtain rfl := Option.some.inj hs
      obtain ⟨r, m, hex, hl, hw⟩ := dequeue_first (h.heap.unlocked hfree)
      refine ⟨ns, .of_easy h.fault (howned rfl) ?_ h.ran rfl,
        Or.inl (by rw [EventStore.sys, EventStore.sys, hsched]; rfl)⟩
      exact h.heap.spinLock hfree rfl rfl rfl (fun u hu => (hothers u hu).1) hex hl hw
    · cases hs
  · have hprog : s.prog none = some p := by rw [EventStore.prog, hsched]; rfl
    have htaking : s.taking none = true := by rw [EventStore.taking, hsched]; rfl
    have hpc : (s.sys ns).pc = .test := by rw [EventStore.sys, hsched]; rfl
    rw [hsched] at hs
    have hs' : s' = s.dequeue p := (Option.some.inj hs).symm
    unfold EventStore.dequeue at hs'
    split at hs'
    · rename_i p' m hstep
      subst hs'
      refine ⟨ns, .of_easy h.fault (howned rfl) ?_ h.ran rfl,
        Or.inl (by rw [EventStore.sys, EventStore.sys, hsched]; rfl)⟩
      exact h.heap.access hprog hstep rfl rfl rfl (fun u hu => (hothers u hu).1) htaking.symm
    · rename_i hstuck
      obtain ⟨r, rfl⟩ := h.heap.ret_of_stuck hprog hstuck
      have hl := h.heap.leaves hprog
      rw [htaking] at hl
      rcases hl with ⟨rfl, rfl, hring⟩ | ⟨a, ms, rfl, rfl, hring⟩
      · subst hs'
        refine ⟨[], .of_easy h.fault (howned rfl) ?_ h.ran rfl, Or.inr ⟨.take, ?_⟩⟩
        · exact h.heap.spinUnlock hprog hring rfl rfl rfl (fun u hu => (hothers u hu).1)
        · rw [EventSys.step, if_pos hpc]
          rfl
      · subst hs'
        refine ⟨ms, .of_easy h.fault ?_ ?_ h.ran rfl, Or.inr ⟨.take, ?_⟩⟩
        · exact h.owned.take rfl hold rfl (fun u hu => (hothers u hu).2.1)
        · exact h.heap.spinUnlock hprog hring rfl rfl rfl (fun u hu => (hothers u hu).1)
        · rw [EventSys.step, if_pos hpc]
          rfl

/-- `free_ums_event` after a successful copy. -/
theorem EventSim.free (h : EventSim s ns) {a : ℕ} (hsched : s.sched = .copied a)
    (hs : s.go s.sched = some s') : EventSim s' ns ∧ Mimics param s ns s' ns := by
  have hold : s.holds none = some a := by rw [EventStore.holds, hsched]; rfl
  have hlive : s.live a = true := (h.owned.live a).mpr (Or.inr ⟨none, hold⟩)
  rw [hsched, EventStore.go, EventStore.freeUmsEvent, if_pos hlive] at hs
  obtain rfl := Option.some.inj hs
  have hothers (u : Option Pid) (hu : u ≠ none) : SameAt s { s with
      live := Function.update s.live a false
      sched := .got (s.event a)
      signalled := false } u :=
    sameAt_of_places (fun _ _ => rfl) (fun hnone => absurd hnone hu)
  refine ⟨.of_easy h.fault ?_ ?_ h.ran rfl,
    Or.inl (by rw [EventStore.sys, EventStore.sys, hsched]; rfl)⟩
  · exact h.owned.free hold rfl rfl (fun u hu => (hothers u hu).2.1)
  · refine h.heap.congr rfl rfl (fun u => ?_) (fun u => ?_)
    · cases u with
      | none => rw [EventStore.prog, EventStore.prog, hsched]; rfl
      | some v => rfl
    · cases u with
      | none => rw [EventStore.taking, EventStore.taking, hsched]; rfl
      | some v => rfl

theorem alloc_eq {e : Event} {a : ℕ} {node : Links EventNode} {s₁ : EventStore}
    (hs : s.alloc e a node = some s₁) : s.live a = false ∧ s₁ = { s with
      heap := Function.update s.heap (.event a) node
      event := Function.update s.event a e
      live := Function.update s.live a true } := by
  rw [EventStore.alloc] at hs
  split at hs
  · cases hs
  · rename_i hl
    exact ⟨Bool.eq_false_iff.mpr hl, (Option.some.inj hs).symm⟩

theorem SchedPlace.pc_congr {event event' : ℕ → Event} {y : SchedPlace}
    (h : ∀ a, y.held = some a → event' a = event a) : y.pc event' = y.pc event := by
  cases y with
  | startup x => cases x <;> rfl
  | copy a => exact congrArg SchedPc.copy (h a rfl)
  | copied a => exact congrArg SchedPc.got (h a rfl)
  | back e x =>
    cases x with
    | ready a => exact congrArg SchedPc.putBack (h a rfl)
    | body | wake => rfl
  | _ => rfl

theorem map_event_update (h : NodesOwned s ns) {a : ℕ} (ha : s.live a = false) (e : Event) :
    ns.map (Function.update s.event a e) = ns.map s.event := by
  apply List.map_congr_left
  intro b hb
  apply Function.update_of_ne
  rintro rfl
  exact (h.fresh ha).1 hb

/-- A worker allocates an event. -/
theorem EventSim.post (h : EventSim s ns) {t : Pid} {e : Event} {a : ℕ} {node : Links EventNode}
    (hpost : s.post t = none) (hexec : s.executed = true) {s₁ : EventStore}
    (hs : s.alloc e a node = some s₁)
    (hs' : s' = { s₁ with post := Function.update s₁.post t (some (.ready a)) }) :
    EventSim s' ns ∧ Mimics param s ns s' ns := by
  obtain ⟨ha, rfl⟩ := alloc_eq hs
  obtain ⟨hns, hnobody⟩ := h.owned.fresh ha
  have hold : s.holds (some t) = none := by rw [EventStore.holds, hpost]; rfl
  have hself : s'.post t = some (.ready a) := by rw [hs']; exact Function.update_self _ _ _
  have hother (u : Pid) (hu : u ≠ t) : s'.post u = s.post u := by
    rw [hs']
    exact Function.update_of_ne hu _ _
  have hsched : s'.sched = s.sched := by rw [hs']
  have hothers (u : Option Pid) (hu : u ≠ some t) : SameAt s s' u :=
    sameAt_of_places (fun v hv => hother v (fun hvt => hu (by rw [hv, hvt]))) (fun _ => hsched)
  have hevent (b : ℕ) (hb : s.sched.held = some b) : s'.event b = s.event b := by
    rw [hs']
    apply Function.update_of_ne
    rintro rfl
    exact hnobody none hb
  refine ⟨⟨by rw [hs']; exact h.fault, ?_, ?_, fun _ _ _ => by rw [hs']; exact hexec,
    fun b hb => ?_, fun e b hb => ?_, fun hp hi => ?_, fun hp hi => ?_⟩, Or.inl ?_⟩
  · exact h.owned.gain ha (by rw [hs']) hold (by rw [EventStore.holds, hself]; rfl)
      (fun u hu => (hothers u hu).2.1)
  · refine h.heap.alloc hns (by rw [hs']) (by rw [hs']) (fun u => ?_) (fun u => ?_)
    · by_cases hu : u = some t
      · rw [hu, EventStore.prog, EventStore.prog, hself, hpost]
        rfl
      · exact (hothers u hu).1
    · by_cases hu : u = some t
      · rw [hu]
        rfl
      · exact (hothers u hu).2.2
  · rw [hsched] at hb
    rw [hevent b (by rw [hb]; rfl)]
    exact h.starting b hb
  · rw [hsched] at hb
    rw [hevent b (by rw [hb]; rfl)]
    exact h.undelivered e b hb
  · rw [hsched] at hp
    rw [hs'] at hi ⊢
    exact h.waiting hp hi
  · rw [hsched] at hp
    rw [hs'] at hi
    rcases h.asleep hp hi with hnil | ⟨u, x, hx, hne⟩
    · exact Or.inl hnil
    · refine Or.inr ⟨u, x, ?_, hne⟩
      rw [hother u (fun hut => by rw [hut, hpost] at hx; cases hx)]
      exact hx
  · rw [EventStore.sys, EventStore.sys, hsched, SchedPlace.pc_congr hevent]
    rw [hs']
    simp only [map_event_update h.owned ha]

/-- The scheduler thread allocates the startup event. -/
theorem EventSim.allocStartup (h : EventSim s ns) {a : ℕ} {node : Links EventNode}
    (hsched : s.sched = .entering) {s₁ : EventStore}
    (hs : s.alloc .schedulerStartup a node = some s₁)
    (hs' : s' = { s₁ with sched := .startup (.ready a) }) :
    EventSim s' ns ∧ Mimics param s ns s' ns := by
  obtain ⟨ha, rfl⟩ := alloc_eq hs
  obtain ⟨hns, -⟩ := h.owned.fresh ha
  have hold : s.holds none = none := by rw [EventStore.holds, hsched]; rfl
  have hothers (u : Option Pid) (hu : u ≠ none) : SameAt s s' u :=
    sameAt_of_places (fun v _ => by rw [hs']) (fun hnone => absurd hnone hu)
  have hself : s'.sched = .startup (.ready a) := by rw [hs']
  refine ⟨⟨by rw [hs']; exact h.fault, ?_, ?_, fun t x hx => ?_, fun b hb => ?_, ?_, ?_, ?_⟩,
    Or.inl ?_⟩
  · exact h.owned.gain ha (by rw [hs']) hold (by rw [EventStore.holds, hself]; rfl)
      (fun u hu => (hothers u hu).2.1)
  · refine h.heap.alloc hns (by rw [hs']) (by rw [hs']) (fun u => ?_) (fun u => ?_)
    · by_cases hu : u = none
      · rw [hu, EventStore.prog, EventStore.prog, hself, hsched]
        rfl
      · exact (hothers u hu).1
    · by_cases hu : u = none
      · rw [hu, EventStore.taking, EventStore.taking, hself, hsched]
        rfl
      · exact (hothers u hu).2.2
  · rw [hs'] at hx ⊢
    exact h.ran t x hx
  · rw [hself] at hb
    cases hb
    rw [hs']
    exact Function.update_self _ _ _
  · intro e b hb
    rw [hself] at hb
    cases hb
  · intro hb
    rw [hself] at hb
    rcases hb with hb | hb <;> cases hb
  · intro hb
    rw [hself] at hb
    cases hb
  · rw [EventStore.sys, EventStore.sys, hself, hsched, hs']
    simp only [map_event_update h.owned ha]
    rfl

theorem eventSim_init : EventSim EventStore.init [] := by
  refine .of_easy rfl ⟨List.nodup_nil, fun t a ht => ?_, fun t u a ht => ?_, fun a => ?_⟩
    ⟨fun t p hp => ?_, fun _ => ?_, fun t ht => by cases ht⟩ (fun t x hx => by cases hx) rfl
  · cases t <;> cases ht
  · cases t <;> cases ht
  · refine iff_of_false (by simp [EventStore.init]) ?_
    rintro (ha | ⟨t, ht⟩)
    · cases ha
    · cases t <;> cases ht
  · cases t <;> cases hp
  · exact (ring_nil_iff _ _).mpr rfl

/-- The next step of the scheduler thread inside a call. -/
theorem EventSim.go (h : EventSim s ns) (hs : s.go s.sched = some s') :
    ∃ ns', EventSim s' ns' ∧ Mimics param s ns s' ns' := by
  cases hsched : s.sched with
  | startup x =>
    rw [hsched] at hs
    obtain ⟨⟨s₁, x'⟩, he, hs'⟩ := Option.map_eq_some_iff.mp hs
    exact ⟨_, h.startup hsched he hs'.symm⟩
  | back e x =>
    rw [hsched] at hs
    obtain ⟨⟨s₁, x'⟩, he, hs'⟩ := Option.map_eq_some_iff.mp hs
    exact ⟨_, h.putBack hsched he hs'.symm⟩
  | lock => exact h.dequeue hs (Or.inl hsched)
  | body p => exact h.dequeue hs (Or.inr ⟨p, hsched⟩)
  | copied a => exact ⟨ns, h.free hsched hs⟩
  | find => exact ⟨ns, h.wait hs (Or.inl hsched)⟩
  | first | prepare | test | sleep => exact ⟨ns, h.wait hs (Or.inr (Or.inl (by rw [hsched]; rfl)))⟩
  | finish => exact ⟨ns, h.wait hs (Or.inr (Or.inr hsched))⟩
  | _ =>
    rw [hsched] at hs
    cases hs

/-- The library, the copy to user space and signals. -/
theorem EventSim.user (h : EventSim s ns) {a : StoreEventAct} (hs : s.step param a = some s')
    (ha : (∀ t e b node, a ≠ .post t e b node) ∧ (∀ t, a ≠ .run t) ∧
      (∀ b node, a ≠ .startup b node) ∧ a ≠ .go) :
    EventSim s' ns ∧ Mimics param s ns s' ns := by
  cases a with
  | post t e b node => exact absurd rfl (ha.1 t e b node)
  | run t => exact absurd rfl (ha.2.1 t)
  | startup b node => exact absurd rfl (ha.2.2.1 b node)
  | go => exact absurd rfl ha.2.2.2
  | signal =>
    rw [EventStore.step] at hs
    split at hs
    · obtain rfl := Option.some.inj hs
      exact ⟨h.awake ⟨rfl, rfl, rfl, rfl, rfl, rfl, id⟩ rfl rfl, Or.inl rfl⟩
    · cases hs
  | wakeUpContext =>
    obtain rfl := Option.some.inj hs
    exact ⟨h.awake ⟨rfl, rfl, rfl, rfl, rfl, rfl, id⟩ rfl rfl, Or.inl rfl⟩
  | interrupt restart =>
    simp only [EventStore.step] at hs
    split at hs
    · rename_i hsched
      split at hs
      · obtain rfl := Option.some.inj hs
        have hpc : (s.sys ns).pc = .wait := by rw [EventStore.sys, hsched]; rfl
        refine ⟨?_, Or.inr ⟨.interrupt restart, ?_⟩⟩
        · cases restart <;>
            exact h.goTo ⟨rfl, rfl, rfl, rfl, rfl, rfl, id⟩ hsched rfl ⟨rfl, rfl, rfl⟩ rfl
        · rw [EventSys.step, if_pos hpc]
          cases restart <;> rfl
      · cases hs
    · cases hs
  | copyToUser ok =>
    simp only [EventStore.step] at hs
    split at hs
    · rename_i b hsched
      have hpc : (s.sys ns).pc = .copy (s.event b) := by rw [EventStore.sys, hsched]; rfl
      cases ok with
      | true =>
        obtain rfl := Option.some.inj hs
        refine ⟨h.goTo ⟨rfl, rfl, rfl, rfl, rfl, rfl, id⟩ hsched rfl ⟨rfl, rfl, rfl⟩ rfl,
          Or.inr ⟨.copyToUser true, ?_⟩⟩
        rw [EventSys.step, hpc]
        rfl
      | false =>
        obtain rfl := Option.some.inj hs
        refine ⟨h.setSched ⟨rfl, rfl, rfl, rfl, rfl, rfl, id⟩ hsched rfl ⟨rfl, rfl, rfl⟩
          (fun c hb => by cases hb) ?_ (fun hb => by rcases hb with hb | hb <;> cases hb)
          (fun hb => by cases hb),
          Or.inr ⟨.copyToUser false, ?_⟩⟩
        · intro e c hb
          cases hb
          rfl
        · rw [EventSys.step, hpc]
          rfl
    · cases hs
  | ioctl =>
    simp only [EventStore.step] at hs
    split at hs
    · rename_i hsched
      obtain rfl := Option.some.inj hs
      have hpc : (s.sys ns).pc = .loop := by rw [EventStore.sys, hsched]; rfl
      refine ⟨h.goTo ⟨rfl, rfl, rfl, rfl, rfl, rfl, id⟩ hsched rfl ⟨rfl, rfl, rfl⟩ rfl,
        Or.inr ⟨.ioctl, ?_⟩⟩
      rw [EventSys.step, if_pos hpc]
      rfl
    · cases hs
  | checkErrno =>
    simp only [EventStore.step] at hs
    split at hs
    · rename_i err u hsched
      obtain rfl := Option.some.inj hs
      have hpc : (s.sys ns).pc = .failed err u := by rw [EventStore.sys, hsched]; rfl
      refine ⟨?_, Or.inr ⟨.checkErrno, ?_⟩⟩
      · cases err <;>
          exact h.goTo ⟨rfl, rfl, rfl, rfl, rfl, rfl, id⟩ hsched rfl ⟨rfl, rfl, rfl⟩ rfl
      · rw [EventSys.step, hpc]
        cases err <;> rfl
    · cases hs
  | callEntry =>
    simp only [EventStore.step] at hs
    split at hs
    · rename_i e hsched
      obtain rfl := Option.some.inj hs
      have hpc : (s.sys ns).pc = .got e := by rw [EventStore.sys, hsched]; rfl
      refine ⟨h.goTo ⟨rfl, rfl, rfl, rfl, rfl, rfl, id⟩ hsched rfl ⟨rfl, rfl, rfl⟩ rfl,
        Or.inr ⟨.callEntry, ?_⟩⟩
      rw [EventSys.step, hpc]
      rfl
    · cases hs
  | exec =>
    simp only [EventStore.step] at hs
    split at hs
    · rename_i hsched
      obtain rfl := Option.some.inj hs
      have hpc : (s.sys ns).pc = .entry := by rw [EventStore.sys, hsched]; rfl
      refine ⟨h.goTo ⟨rfl, rfl, rfl, rfl, rfl, rfl, fun _ => rfl⟩ hsched hsched
        ⟨rfl, rfl, rfl⟩ rfl, Or.inr ⟨.exec, ?_⟩⟩
      rw [EventSys.step, if_pos hpc]
      rfl
    · cases hs
  | returnEntry =>
    simp only [EventStore.step] at hs
    split at hs
    · rename_i hsched
      obtain rfl := Option.some.inj hs
      have hpc : (s.sys ns).pc = .entry := by rw [EventStore.sys, hsched]; rfl
      refine ⟨h.goTo ⟨rfl, rfl, rfl, rfl, rfl, rfl, id⟩ hsched rfl ⟨rfl, rfl, rfl⟩ rfl,
        Or.inr ⟨.returnEntry, ?_⟩⟩
      rw [EventSys.step, if_pos hpc]
      rfl
    · cases hs

theorem EventSim.step (h : EventSim s ns) {a : StoreEventAct} (hs : s.step param a = some s') :
    ∃ ns', EventSim s' ns' ∧ Mimics param s ns s' ns' := by
  cases a with
  | post t e b node =>
    rw [EventStore.step] at hs
    split at hs
    · rename_i hok
      obtain ⟨s₁, he, hs'⟩ := Option.map_eq_some_iff.mp hs
      exact ⟨ns, h.post hok.2 hok.1 he hs'.symm⟩
    · cases hs
  | run t =>
    obtain ⟨x, hx, hs⟩ := Option.bind_eq_some_iff.mp hs
    obtain ⟨⟨s₁, x'⟩, he, hs'⟩ := Option.map_eq_some_iff.mp hs
    exact ⟨_, h.run hx he hs'.symm⟩
  | startup b node =>
    simp only [EventStore.step] at hs
    split at hs
    · rename_i hsched
      obtain ⟨s₁, he, hs'⟩ := Option.map_eq_some_iff.mp hs
      exact ⟨ns, h.allocStartup hsched he hs'.symm⟩
    · cases hs
  | go => exact h.go hs
  | _ =>
    refine ⟨ns, h.user hs ⟨?_, ?_, ?_, ?_⟩⟩
    · rintro t e b node ⟨⟩
    · rintro t ⟨⟩
    · rintro b node ⟨⟩
    · rintro ⟨⟩

/-- Every run of loads and stores stands for a run of the event system. -/
theorem eventSim_of_reachable (hr : EventStoreReachable param s) :
    ∃ ns, EventSim s ns ∧ EventReachable param (s.sys ns) := by
  apply hr.invariant (fun s => ∃ ns, EventSim s ns ∧ EventReachable param (s.sys ns))
    ⟨[], eventSim_init, .refl⟩
  intro s a s' ⟨ns, h, hd⟩ _ hs
  obtain ⟨ns', h', hm⟩ := h.step hs
  refine ⟨ns', h', ?_⟩
  rcases hm with he | ⟨b, hb⟩
  · rw [he]
    exact hd
  · exact .tail b hd trivial hb

end Steps

def SchedPlace.isSleep : SchedPlace → Bool
  | .sleep => true
  | _ => false

/-- The event queue of a scheduler is linearizable. With `enqueue_ums_sched_event` and
`do_dequeue_ums_sched_event` broken up into their loads and stores, every run stands for one in
which each of them is one step, so events are delivered in order and exactly once; while the lock
is free the list is the queue. -/
theorem event_stores_refine {param : UserPtr} {s : EventStore} (hr : EventStoreReachable param s) :
    s.fault = false ∧ ∃ ns, EventReachable param (s.sys ns) ∧
      (s.lock = none → Ring s.heap .head (ns.map .event)) ∧
      s.delivered ++ (s.sched.pc s.event).inFlight ++ ns.map s.event = s.enqueued := by
  obtain ⟨ns, h, hd⟩ := eventSim_of_reachable hr
  have hI : EventInv param (s.sys ns) := Transition.Reach.invariant (EventInv param)
    (eventInv_init param) (fun s a s' hI _ hs => eventInv_step param s s' a hI hs) hd
  exact ⟨h.fault, ns, hd, h.heap.unlocked, hI.conserved⟩

/-- A scheduler gets its startup event and sleeps; the worker 7 queues an event in the memory of
the startup event and is about to wake the scheduler. -/
def yieldWhileAsleep : List StoreEventAct :=
  let k (n : ℕ) : List StoreEventAct := List.replicate n .go
  List.flatten [.startup 0 ⟨.null, .null⟩ :: k 8, .ioctl :: k 11, .copyToUser true :: k 1,
    [.callEntry, .exec, .returnEntry], .ioctl :: k 7,
    .post 7 (.threadYield 7 42) 0 ⟨.poison1, .null⟩ :: List.replicate 7 (.run 7)]

theorem event_stores_refine_yieldWhileAsleep :
    ∃ s, (EventStoreReachable 5 s ∧ s.delivered = [.schedulerStartup] ∧
      s.enqueued = [.schedulerStartup, .threadYield 7 42]) ∧
      s.fault = false ∧ ∃ ns, EventReachable 5 (s.sys ns) ∧
        (s.lock = none → Ring s.heap .head (ns.map .event)) ∧
        s.delivered ++ (s.sched.pc s.event).inFlight ++ ns.map s.event = s.enqueued := by
  obtain ⟨s, hr, hs⟩ := Transition.Reach.exists_of_run (EventStore.step 5) (fun _ _ => True)
    EventStore.init yieldWhileAsleep (fun s => s.delivered = [.schedulerStartup] ∧
      s.enqueued = [.schedulerStartup, .threadYield 7 42]) (by decide +kernel)
  exact ⟨s, ⟨hr, hs⟩, event_stores_refine hr⟩

/-- Every allocated event is in the queue or in the hands of one thread, so none is lost, freed
twice or freed while it is in use; and the list is touched under the lock only, in `event_q` and
in allocated events of the queue. -/
theorem event_nodes_have_one_owner {param : UserPtr} {s : EventStore}
    (hr : EventStoreReachable param s) :
    ∃ ns, EventReachable param (s.sys ns) ∧ ns.Nodup ∧
      (∀ a, s.live a = true ↔ a ∈ ns ∨ ∃ t, s.holds t = some a) ∧
      (∀ t a, s.holds t = some a → a ∉ ns ∧ ∀ u, s.holds u = some a → u = t) ∧
      ∀ t p c, s.prog t = some p → p.address = some c → s.lock = some t ∧
        (c.1 = .head ∨ ∃ a ∈ ns, c.1 = .event a ∧ s.live a = true) := by
  obtain ⟨ns, h, hd⟩ := eventSim_of_reachable hr
  refine ⟨ns, hd, h.owned.nodup, h.owned.live, fun t a ht => ⟨h.owned.held t a ht, fun u hu =>
    h.owned.alone u t a hu ht⟩, fun t p c hp hc => ⟨h.heap.owner t p hp, ?_⟩⟩
  obtain ⟨q, r, m, hq, hw, -, -⟩ := h.heap.locked t (h.heap.owner t p hp)
  obtain rfl : p = q := Option.some.inj (hp.symm.trans hq)
  have hmem : c ∈ cellsOf (ringNodes ns) := address_of_within hw hc
  rcases (mem_ringNodes (x := c.1)).mp hmem with hhead | ⟨a, ha, hca⟩
  · exact Or.inl hhead
  · exact Or.inr ⟨a, ha, hca, (h.owned.live a).mpr (Or.inl ha)⟩

theorem event_nodes_have_one_owner_yieldWhileAsleep :
    ∃ s, (EventStoreReachable 5 s ∧ s.live 0 = true ∧ (s.prog (some 7)).isSome = true) ∧
      ∃ ns, EventReachable 5 (s.sys ns) ∧ ns.Nodup ∧
        (∀ a, s.live a = true ↔ a ∈ ns ∨ ∃ t, s.holds t = some a) ∧
        (∀ t a, s.holds t = some a → a ∉ ns ∧ ∀ u, s.holds u = some a → u = t) ∧
        ∀ t p c, s.prog t = some p → p.address = some c → s.lock = some t ∧
          (c.1 = .head ∨ ∃ a ∈ ns, c.1 = .event a ∧ s.live a = true) := by
  obtain ⟨s, hr, hs⟩ := Transition.Reach.exists_of_run (EventStore.step 5) (fun _ _ => True)
    EventStore.init (yieldWhileAsleep.take 39)
    (fun s => s.live 0 = true ∧ (s.prog (some 7)).isSome = true) (by decide +kernel)
  exact ⟨s, ⟨hr, hs⟩, event_nodes_have_one_owner hr⟩

/-- A scheduler sleeps for events only while there is none, or a worker has the lock of the queue
or is about to wake the scheduler. -/
theorem event_wakeup_not_lost {param : UserPtr} {s : EventStore} (hr : EventStoreReachable param s)
    (hp : s.sched.isSleep = true) (hi : s.task = .interruptible) :
    s.queued = true ∧ (listEmpty s.heap .head = true ∨ (∃ t, s.lock = some (some t)) ∨
      ∃ t, s.post t = some .wake) := by
  obtain ⟨ns, h, -⟩ := eventSim_of_reachable hr
  have hsched : s.sched = .sleep := by
    generalize s.sched = y at hp
    cases y with
    | sleep => rfl
    | _ => cases hp
  refine ⟨h.waiting (Or.inr hsched) hi, ?_⟩
  cases hl : s.lock with
  | some t =>
    obtain ⟨p, r, m, hprog, -⟩ := h.heap.locked t hl
    cases t with
    | none =>
      rw [EventStore.prog, hsched] at hprog
      cases hprog
    | some u => exact Or.inr (Or.inl ⟨u, rfl⟩)
  | none =>
    rcases h.asleep hsched hi with rfl | ⟨t, x, hx, hne⟩
    · exact Or.inl ((listEmpty_ring _ _ _ (h.heap.unlocked hl)).mpr rfl)
    · cases x with
      | ready a => exact absurd rfl (hne a)
      | wake => exact Or.inr (Or.inr ⟨t, hx⟩)
      | body p =>
        have hown := h.heap.owner (some t) p (by rw [EventStore.prog, hx]; rfl)
        cases hl.symm.trans hown

theorem event_wakeup_not_lost_yieldWhileAsleep :
    ∃ s, (EventStoreReachable 5 s ∧ s.sched.isSleep = true ∧ s.task = .interruptible ∧
      listEmpty s.heap .head = false ∧ s.lock = none) ∧
      s.queued = true ∧ (listEmpty s.heap .head = true ∨ (∃ t, s.lock = some (some t)) ∨
        ∃ t, s.post t = some .wake) := by
  obtain ⟨s, hr, hp, hi, hs⟩ := Transition.Reach.exists_of_run (EventStore.step 5)
    (fun _ _ => True) EventStore.init yieldWhileAsleep (fun s => s.sched.isSleep = true ∧
      s.task = .interruptible ∧ listEmpty s.heap .head = false ∧ s.lock = none) (by decide +kernel)
  exact ⟨s, ⟨hr, hp, hi, hs⟩, event_wakeup_not_lost hr hp hi⟩

end LinuxUms
