import LinuxUms.StoreRefinement

/-! What holds between any two loads or stores: the accesses of two threads meet in one node only
where one of them is the test of a wait, the device is one in which the list operations are single
steps, and nobody sleeps while there is a context to take. -/
namespace LinuxUms

open KernelList StoreProgram Handoff

variable {s : StoreDevice} {d : Device} {F : Pid → Set (Cell Node)} {q : Pid → ListProg Node}
  {t u : Pid}

/-- The list that thread `t` is about to test in `wait_event_interruptible`, without its lock. -/
def StoreDevice.tests (s : StoreDevice) (t : Pid) : Option ListId :=
  match s.place t, s.dev.pc t with
  | .first, .dqWait l | .test _, .dqWait l => some l
  | _, _ => none

/-- What thread `t` touches next: `head.next` of the list that it tests, or what the program of its
list operation says. -/
def StoreDevice.touches (s : StoreDevice) (t : Pid) : Option (Cell Node) :=
  match s.tests t with
  | some l => some (.head l, .next)
  | none => (s.place t).prog.address

theorem StoreSim.owns_touched (h : StoreSim s d F q) {c : Cell Node} (hc : s.touches t = some c)
    (htest : s.tests t = none) : Owns s.lock d t c.1 := by
  rw [StoreDevice.touches, htest] at hc
  exact h.owned t c (address_of_within (h.pool.sync t).left hc)

theorem lock_of_owns {lock : ListId → Option Pid} {l : ListId} (h : Owns lock d t (.head l)) :
    lock l = some t := by
  rcases h with ⟨k, ms, hk, -, hn⟩ | ⟨c, ms, -, -, hn⟩ | ⟨-, hn⟩
  · obtain rfl : l = k := by simpa using hn
    exact hk
  · simp at hn
  · cases hn

/-- Without a lock on it, a list is what it is in the device with single steps. -/
theorem StoreSim.listEmpty_of_unlocked (h : StoreSim s d F q) {l : ListId} (hl : s.lock l = none) :
    listEmpty s.dev.heap (.head l) = listEmpty d.heap (.head l) := by
  have hcell : cells s.dev.heap (.head l, .next) = cells d.heap (.head l, .next) := by
    apply h.pool.rest
    intro u hu
    cases hl.symm.trans (lock_of_owns (h.owned u _ hu))
  unfold listEmpty
  rw [show (s.dev.heap (.head l)).next = (d.heap (.head l)).next from hcell]

theorem StoreSim.heap_eq (h : StoreSim s d F q) (hout : ∀ t p, s.place t ≠ .body p) :
    s.dev.heap = d.heap := by
  rw [← ofCells_cells s.dev.heap, ← ofCells_cells d.heap]
  congr 1
  funext c
  apply h.pool.rest
  intro t
  rw [((h.thread t).idle (hout t)).1]
  exact Set.notMem_empty c

/-- In `schedule()`. -/
def ListPlace.isSleep : ListPlace → Bool
  | .sleep => true
  | _ => false

/-- Two workers are taken as a batch. While the scheduler goes through it, a third worker puts
itself in the list. -/
def drainWhileAdding : List DeviceAct :=
  let k (n : ℕ) (t : Pid) : List DeviceAct := List.replicate n (.run t)
  let enter (t : Pid) : DeviceAct := .enterWorker t 5 ⟨.null, .null⟩ true
  List.flatten [enter 1 :: k 11 1, enter 2 :: k 11 2, .enterScheduler 10 5 :: k 3 10,
    .dqcontext 10 5 :: k 21 10, .nextContext 10 1 :: k 4 10, enter 3 :: k 6 3]

/-- Every run of the device with single loads and stores is one of the device in which the list
operations are single steps: it has the same history and the same tables, and no bad pointer. A
thread that is in no list operation is where it is there, and between the operations the lists are
those of that device. -/
theorem loads_and_stores_refine {s : StoreDevice} (hr : StoreReachable s) :
    ∃ d, DeviceReachable d ∧ d.hist = s.dev.hist ∧ d.worker = s.dev.worker ∧
      d.scheduler = s.dev.scheduler ∧ d.ready = s.dev.ready ∧ s.dev.fault = false ∧
      (∀ t, s.place t = .out → d.pc t = s.dev.pc t ∧ d.batches t = s.dev.batches t) ∧
      ((∀ t p, s.place t ≠ .body p) → d.heap = s.dev.heap) := by
  obtain ⟨d, F, q, h⟩ := storeSim_of_reachable hr
  have hfault : s.dev.fault = false := by
    rw [← h.same.fault]
    exact Device.fault_of_reachable h.dev
  refine ⟨d, h.dev, h.same.hist, h.same.worker, h.same.scheduler, h.same.ready, hfault,
    fun t ht => ?_, fun hout => (h.heap_eq hout).symm⟩
  obtain ⟨-, hpc, hb, -⟩ := h.of_out ht
  exact ⟨hpc, hb⟩

theorem loads_and_stores_refine_drainWhileAdding :
    ∃ s, (StoreReachable s ∧ s.lock 5 = some 3 ∧ s.touches 3 = some (.context 3, .next) ∧
      s.touches 10 = some (.context 2, .next)) ∧
      ∃ d, DeviceReachable d ∧ d.hist = s.dev.hist ∧ d.worker = s.dev.worker ∧
        d.scheduler = s.dev.scheduler ∧ d.ready = s.dev.ready ∧ s.dev.fault = false ∧
        (∀ t, s.place t = .out → d.pc t = s.dev.pc t ∧ d.batches t = s.dev.batches t) ∧
        ((∀ t p, s.place t ≠ .body p) → d.heap = s.dev.heap) := by
  obtain ⟨s, hr, hs⟩ := Transition.Reach.exists_of_run StoreDevice.step
    (fun s a => Protocol s.dev a ∧ Calm s.dev a) StoreDevice.init drainWhileAdding
    (fun s => s.lock 5 = some 3 ∧ s.touches 3 = some (.context 3, .next) ∧
      s.touches 10 = some (.context 2, .next)) (by decide +kernel)
  exact ⟨s, ⟨hr, hs⟩, loads_and_stores_refine hr⟩

/-- The head of a list is touched under its lock, or by the test of a wait, and two threads touch
one list node at the same time only if one of them makes such a test.
`ums_complist_next_context` needs no lock, as a batch is its scheduler's own. -/
theorem list_accesses_never_meet {s : StoreDevice} (hr : StoreReachable s) {t : Pid}
    {c : Cell Node} (hc : s.touches t = some c) :
    (∀ l, c.1 = .head l → s.lock l = some t ∨ s.tests t = some l) ∧
    ∀ u c', u ≠ t → s.touches u = some c' → c'.1 = c.1 →
      (s.tests t).isSome = true ∨ (s.tests u).isSome = true := by
  obtain ⟨d, F, q, h⟩ := storeSim_of_reachable hr
  cases ht : s.tests t with
  | some k =>
    refine ⟨fun l hl => Or.inr ?_, fun u c' _ _ _ => Or.inl rfl⟩
    rw [StoreDevice.touches, ht, Option.some.injEq] at hc
    rw [← hc, Node.head.injEq] at hl
    rw [hl]
  | none =>
    have hown := h.owns_touched hc ht
    refine ⟨fun l hl => Or.inl (lock_of_owns (hl ▸ hown)), fun u c' hut hc' he => Or.inr ?_⟩
    cases hu : s.tests u with
    | some k => rfl
    | none => exact absurd (Device.owns_unique h.dev (he ▸ h.owns_touched hc' hu) hown) hut

/-- Scheduler 10 waits for contexts, and is about to test its list while worker 1 writes to the head
of the list. -/
def testWhileAdding : List DeviceAct :=
  let k (n : ℕ) (t : Pid) : List DeviceAct := List.replicate n (.run t)
  List.flatten [.enterScheduler 10 5 :: k 3 10, .dqcontext 10 5 :: k 3 10,
    .enterWorker 1 5 ⟨.null, .null⟩ true :: k 5 1]

theorem list_accesses_never_meet_testWhileAdding :
    ∃ s, (StoreReachable s ∧ s.touches 1 = some (.head 5, .prev) ∧
      s.touches 10 = some (.head 5, .next)) ∧
      (∀ l, (Node.head 5 : Node) = .head l → s.lock l = some 1 ∨ s.tests 1 = some l) ∧
      ∀ u c', u ≠ 1 → s.touches u = some c' → c'.1 = .head 5 →
        (s.tests 1).isSome = true ∨ (s.tests u).isSome = true := by
  obtain ⟨s, hr, h1, h10⟩ := Transition.Reach.exists_of_run StoreDevice.step
    (fun s a => Protocol s.dev a ∧ Calm s.dev a) StoreDevice.init testWhileAdding
    (fun s => s.touches 1 = some (.head 5, .prev) ∧ s.touches 10 = some (.head 5, .next))
    (by decide +kernel)
  exact ⟨s, ⟨hr, h1, h10⟩, list_accesses_never_meet hr h1⟩

/-- A scheduler goes to sleep, and a worker puts itself in the list. -/
def addWhileAsleep : List DeviceAct :=
  let k (n : ℕ) (t : Pid) : List DeviceAct := List.replicate n (.run t)
  List.flatten [.enterScheduler 10 5 :: k 3 10, .dqcontext 10 5 :: k 6 10,
    .enterWorker 1 5 ⟨.null, .null⟩ true :: k 10 1]

/-- A scheduler sleeps in `wait_event_interruptible` only while its list is empty, or somebody has
the lock of the list, or somebody is about to wake the scheduler. -/
theorem no_wakeup_is_lost {s : StoreDevice} (hr : StoreReachable s) {t : Pid} {l : ListId}
    (hx : (s.place t).isSleep = true) (hpc : s.dev.pc t = .dqWait l)
    (hi : s.dev.task t = .interruptible) :
    t ∈ s.waiters l ∧ (listEmpty s.dev.heap (.head l) = true ∨ (∃ u, s.lock l = some u) ∨
      ∃ u, Waking s u l) := by
  obtain ⟨d, F, q, h⟩ := storeSim_of_reachable hr
  have hsleep : s.place t = .sleep := by
    generalize s.place t = x at hx
    cases x with
    | sleep => rfl
    | _ => cases hx
  refine ⟨h.queued t l (by rw [hsleep]; rfl) hpc hi, ?_⟩
  rcases h.asleep t l hsleep hpc hi with hnil | hwake
  · cases hl : s.lock l with
    | some u => exact Or.inr (Or.inl ⟨u, rfl⟩)
    | none =>
      rw [h.listEmpty_of_unlocked hl]
      exact Or.inl ((listEmpty_ring _ _ _ hnil).mpr rfl)
  · exact Or.inr (Or.inr hwake)

theorem no_wakeup_is_lost_addWhileAsleep :
    ∃ s, (StoreReachable s ∧ (s.place 10).isSleep = true ∧ s.dev.pc 10 = .dqWait 5 ∧
      s.dev.task 10 = .interruptible ∧ listEmpty s.dev.heap (.head 5) = false ∧
      s.lock 5 = none) ∧
      10 ∈ s.waiters 5 ∧ (listEmpty s.dev.heap (.head 5) = true ∨ (∃ u, s.lock 5 = some u) ∨
        ∃ u, Waking s u 5) := by
  obtain ⟨s, hr, hx, hpc, hi, hs⟩ := Transition.Reach.exists_of_run StoreDevice.step
    (fun s a => Protocol s.dev a ∧ Calm s.dev a) StoreDevice.init addWhileAsleep
    (fun s => (s.place 10).isSleep = true ∧ s.dev.pc 10 = .dqWait 5 ∧
      s.dev.task 10 = .interruptible ∧ listEmpty s.dev.heap (.head 5) = false ∧
      s.lock 5 = none) (by decide +kernel)
  exact ⟨s, ⟨hr, hx, hpc, hi, hs⟩, no_wakeup_is_lost hr hx hpc hi⟩

end LinuxUms
