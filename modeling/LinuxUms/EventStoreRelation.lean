import LinuxUms.EventStore

/-! The queue that the memory of the event nodes stands for: the list is a ring while the lock is
free, what the owner of the lock is about to leave is one, and every node has one owner. -/
namespace LinuxUms

open KernelList StoreProgram

def Enqueuing.prog : Enqueuing → Option (ListProg EventNode)
  | .body p => some p
  | .ready _ | .wake => none

def Enqueuing.held : Enqueuing → Option ℕ
  | .ready a => some a
  | .body _ | .wake => none

def SchedPlace.prog : SchedPlace → Option (ListProg EventNode)
  | .startup x | .back _ x => x.prog
  | .body p => some p
  | _ => none

/-- The node that is in nobody's list. -/
def SchedPlace.held : SchedPlace → Option ℕ
  | .startup x | .back _ x => x.held
  | .copy a | .copied a => some a
  | _ => none

def SchedPlace.taking : SchedPlace → Bool
  | .body _ => true
  | _ => false

/-- The place of the scheduler thread when each list operation is one step: an event is in the
queue as soon as its thread has the lock, and it is taken when the lock is released. -/
def SchedPlace.pc (event : ℕ → Event) : SchedPlace → SchedPc
  | .entering | .startup (.ready _) => .entering
  | .startup (.body _) | .startup .wake | .loop => .loop
  | .find => .find
  | .lock | .body _ | .finish => .test
  | .first | .prepare | .test _ | .sleep => .wait
  | .copy a => .copy (event a)
  | .copied a => .got (event a)
  | .back _ (.ready a) => .putBack (event a)
  | .back e (.body _) | .back e .wake => .failed .eacces (some e)
  | .failed err u => .failed err u
  | .got e => .got e
  | .entry => .entry
  | .stopped err u => .stopped err u

namespace EventStore

def prog (s : EventStore) : Option Pid → Option (ListProg EventNode)
  | none => s.sched.prog
  | some t => (s.post t).bind Enqueuing.prog

def holds (s : EventStore) : Option Pid → Option ℕ
  | none => s.sched.held
  | some t => (s.post t).bind Enqueuing.held

def taking (s : EventStore) : Option Pid → Bool
  | none => s.sched.taking
  | some _ => false

/-- The state of the event system with the nodes `ns` in the queue. -/
def sys (s : EventStore) (ns : List ℕ) : EventSys :=
  ⟨true, ns.map s.event, s.sched.pc s.event, s.executed, s.enqueued, s.delivered, s.calls⟩

end EventStore

/-- The ring of the nodes `ns`. -/
def EventRing (h : Heap EventNode) (ns : List ℕ) : Prop :=
  Ring h .head (ns.map .event)

def ringNodes (ns : List ℕ) : Set EventNode :=
  {x | x ∈ EventNode.head :: ns.map .event}

/-- What a program leaves when it ends with the result `r`. -/
def LeavesQueue (taking : Bool) (ns : List ℕ) (r : Option EventNode) (h : Heap EventNode) : Prop :=
  if taking then
    (ns = [] ∧ r = none ∧ EventRing h []) ∨
      ∃ a ms, ns = a :: ms ∧ r = some (.event a) ∧ EventRing h ms
  else r = none ∧ ns ≠ [] ∧ EventRing h ns

/-- Every allocated node is in the queue or held by one thread. -/
structure NodesOwned (s : EventStore) (ns : List ℕ) : Prop where
  nodup : ns.Nodup
  held : ∀ t a, s.holds t = some a → a ∉ ns
  alone : ∀ t u a, s.holds t = some a → s.holds u = some a → t = u
  live : ∀ a, s.live a = true ↔ a ∈ ns ∨ ∃ t, s.holds t = some a

/-- The list is a ring while the lock is free, and what the owner of the lock is about to leave is
one. -/
structure HeapOk (s : EventStore) (ns : List ℕ) : Prop where
  owner : ∀ t p, s.prog t = some p → s.lock = some t
  unlocked : s.lock = none → EventRing s.heap ns
  locked : ∀ t, s.lock = some t → ∃ p r m, s.prog t = some p ∧
    p.Within (cellsOf (ringNodes ns)) (cells s.heap) ∧ p.exec (cells s.heap) = some (r, m) ∧
    LeavesQueue (s.taking t) ns r (ofCells m)

structure EventSim (s : EventStore) (ns : List ℕ) : Prop where
  fault : s.fault = false
  owned : NodesOwned s ns
  heap : HeapOk s ns
  ran : ∀ t x, s.post t = some x → s.executed = true
  starting : ∀ a, s.sched = .startup (.ready a) → s.event a = .schedulerStartup
  undelivered : ∀ e a, s.sched = .back e (.ready a) → s.event a = e
  waiting : (s.sched = .test false ∨ s.sched = .sleep) → s.task = .interruptible → s.queued = true
  asleep : s.sched = .sleep → s.task = .interruptible → ns = [] ∨
    ∃ t x, s.post t = some x ∧ ∀ a, x ≠ .ready a

section Ring

variable {h h' : Heap EventNode} {ns : List ℕ} {a : ℕ}

theorem mem_ringNodes {x : EventNode} :
    x ∈ ringNodes ns ↔ x = .head ∨ ∃ a ∈ ns, x = .event a := by
  simp [ringNodes, eq_comm]

theorem event_notMem_ring (ha : a ∉ ns) : EventNode.event a ∉ EventNode.head :: ns.map .event := by
  simp [ha]

/-- A ring is in its own nodes only. -/
theorem EventRing.congr (hr : EventRing h ns) (he : ∀ x ∈ ringNodes ns, h' x = h x) :
    EventRing h' ns :=
  ring_congr h h' _ _ he hr

theorem enqueue_tail (hr : EventRing h ns) (ha : a ∉ ns) :
    ∃ m, (enqueueUmsSchedEventProg a eventAddTail).exec (cells h) = some (none, m) ∧
      EventRing (ofCells m) (ns ++ [a]) ∧
      (enqueueUmsSchedEventProg a eventAddTail).Within (cellsOf (ringNodes (ns ++ [a])))
        (cells h) := by
  obtain ⟨h', hadd, hring, -⟩ := ring_listAddTail h .head (.event a) _ hr (event_notMem_ring ha)
  refine ⟨cells h', ?_, by simpa [EventRing] using hring, ?_⟩
  · show (ListProg.listAddTail _ _ _).exec (cells h) = _
    rw [exec_listAddTail, hadd]
    rfl
  · apply within_of_ring hr
    · intro x hx
      simpa [ringNodes] using Or.imp_right Or.inl (by simpa using hx)
    · refine ⟨List.mem_cons_self, fun prev hprev => ?_⟩
      exact keeps_listAddBetween (by simp [ringNodes]) hprev
        (inside_node (by simp [ringNodes])) trivial

theorem enqueue_head (hr : EventRing h ns) (ha : a ∉ ns) :
    ∃ m, (enqueueUmsSchedEventProg a eventAddHead).exec (cells h) = some (none, m) ∧
      EventRing (ofCells m) (a :: ns) ∧
      (enqueueUmsSchedEventProg a eventAddHead).Within (cellsOf (ringNodes (a :: ns)))
        (cells h) := by
  obtain ⟨h', hadd, hring, -⟩ := ring_listAdd h .head (.event a) _ hr (event_notMem_ring ha)
  refine ⟨cells h', ?_, by simpa [EventRing] using hring, ?_⟩
  · show (ListProg.listAdd _ _ _).exec (cells h) = _
    rw [exec_listAdd, hadd]
    rfl
  · apply within_of_ring hr
    · intro x hx
      simpa [ringNodes] using Or.imp_right Or.inr (by simpa using hx)
    · refine ⟨List.mem_cons_self, fun next hnext => ?_⟩
      exact keeps_listAddBetween (by simp [ringNodes]) (inside_node (by simp [ringNodes])) hnext
        trivial

theorem dequeue_first (hr : EventRing h ns) :
    ∃ r m, doDequeueUmsSchedEventProg.exec (cells h) = some (r, m) ∧
      LeavesQueue true ns r (ofCells m) ∧
      doDequeueUmsSchedEventProg.Within (cellsOf (ringNodes ns)) (cells h) := by
  have hwithin : doDequeueUmsSchedEventProg.Within (cellsOf (ringNodes ns)) (cells h) := by
    apply within_of_ring hr (fun x hx => hx)
    refine ⟨List.mem_cons_self, fun next _ => ?_⟩
    show Keeps _ _ (if next = .node .head then .ret none else _)
    split
    · trivial
    · refine ⟨List.mem_cons_self, fun next hnext => ?_⟩
      apply keeps_atNode hnext
      intro x hx
      exact keeps_listDel hx trivial
  cases ns with
  | nil =>
    have hnext : (h .head).next = .node .head := by
      have he := (listEmpty_ring h _ _ hr).mpr rfl
      simpa [listEmpty] using he
    refine ⟨none, cells h, ?_, Or.inl ⟨rfl, rfl, hr⟩, hwithin⟩
    show (if (h .head).next = .node .head then _ else _ : ListProg EventNode).exec (cells h) = _
    rw [if_pos hnext]
    rfl
  | cons a ms =>
    obtain ⟨h', hdel, hring, -, -⟩ := ring_listDel h .head (.event a) _ hr
    have hnext : (h .head).next = .node (.event a) := hr.1.1.1
    refine ⟨some (.event a), cells h', ?_, Or.inr ⟨a, ms, rfl, rfl, hring⟩, hwithin⟩
    show (if (h .head).next = .node .head then _ else _ : ListProg EventNode).exec (cells h) = _
    rw [if_neg (by rw [hnext]; simp)]
    show (ListProg.atNode (h .head).next _).exec (cells h) = _
    rw [hnext]
    show (ListProg.listDel _ _).exec (cells h) = _
    rw [exec_listDel, hdel]
    rfl

end Ring

section Owned

variable {s s' : EventStore} {ns ms : List ℕ} {t : Option Pid} {a : ℕ}

theorem holds_of_gets (hold : s.holds t = none) (hnew : s'.holds t = some a)
    (hothers : ∀ u, u ≠ t → s'.holds u = s.holds u) (u : Option Pid) (b : ℕ) :
    s'.holds u = some b ↔ (u = t ∧ b = a) ∨ s.holds u = some b := by
  by_cases hu : u = t
  · rw [hu, hnew, hold]
    simp [eq_comm]
  · rw [hothers u hu]
    simp [hu]

theorem holds_of_loses (hnew : s'.holds t = none)
    (hothers : ∀ u, u ≠ t → s'.holds u = s.holds u) (u : Option Pid) (b : ℕ) :
    s'.holds u = some b ↔ u ≠ t ∧ s.holds u = some b := by
  by_cases hu : u = t
  · rw [hu, hnew]
    simp
  · rw [hothers u hu]
    simp [hu]

theorem NodesOwned.congr (h : NodesOwned s ns) (hlive : s'.live = s.live)
    (hholds : ∀ u, s'.holds u = s.holds u) : NodesOwned s' ns := by
  refine ⟨h.nodup, fun u b hb => ?_, fun u v b hu hv => ?_, fun b => ?_⟩
  · rw [hholds] at hb
    exact h.held u b hb
  · rw [hholds] at hu hv
    exact h.alone u v b hu hv
  · rw [hlive, h.live]
    simp only [hholds]

/-- A node that is not allocated is nobody's. -/
theorem NodesOwned.fresh (h : NodesOwned s ns) {a : ℕ} (ha : s.live a = false) :
    a ∉ ns ∧ ∀ t, s.holds t ≠ some a := by
  have hno : ¬(a ∈ ns ∨ ∃ t, s.holds t = some a) := by
    rw [← h.live, ha]
    simp
  exact ⟨fun hmem => hno (Or.inl hmem), fun t ht => hno (Or.inr ⟨t, ht⟩)⟩

/-- A thread gets a new node. -/
theorem NodesOwned.gain (h : NodesOwned s ns) (ha : s.live a = false)
    (hlive : s'.live = Function.update s.live a true) (hold : s.holds t = none)
    (hnew : s'.holds t = some a) (hothers : ∀ u, u ≠ t → s'.holds u = s.holds u) :
    NodesOwned s' ns := by
  obtain ⟨hns, hnobody⟩ := h.fresh ha
  have hcases := holds_of_gets hold hnew hothers
  refine ⟨h.nodup, fun u b hb => ?_, fun u v b hu hv => ?_, fun b => ?_⟩
  · rcases (hcases u b).mp hb with ⟨-, rfl⟩ | hb
    · exact hns
    · exact h.held u b hb
  · rcases (hcases u b).mp hu with ⟨rfl, rfl⟩ | hu <;>
      rcases (hcases v b).mp hv with ⟨hv, hba⟩ | hv
    · exact hv.symm
    · exact absurd hv (hnobody v)
    · exact absurd (hba ▸ hu) (hnobody u)
    · exact h.alone u v b hu hv
  · simp only [hcases]
    rw [hlive]
    by_cases hb : b = a
    · subst hb
      simp
    · rw [Function.update_of_ne hb, h.live]
      simp [hb]

/-- A thread puts its node in the queue. -/
theorem NodesOwned.give (h : NodesOwned s ns) (hlive : s'.live = s.live)
    (hold : s.holds t = some a) (hnew : s'.holds t = none)
    (hothers : ∀ u, u ≠ t → s'.holds u = s.holds u) (hnodup : ms.Nodup)
    (hmem : ∀ b, b ∈ ms ↔ b = a ∨ b ∈ ns) : NodesOwned s' ms := by
  have hcases := holds_of_loses hnew hothers
  refine ⟨hnodup, fun u b hb => ?_, fun u v b hu hv => ?_, fun b => ?_⟩
  · obtain ⟨hut, hb⟩ := (hcases u b).mp hb
    rw [hmem]
    rintro (rfl | hbn)
    · exact hut (h.alone u t b hb hold)
    · exact h.held u b hb hbn
  · exact h.alone u v b ((hcases u b).mp hu).2 ((hcases v b).mp hv).2
  · rw [hlive, h.live, hmem]
    simp only [hcases]
    constructor
    · rintro (hb | ⟨u, hu⟩)
      · exact Or.inl (Or.inr hb)
      · by_cases hut : u = t
        · rw [hut, hold] at hu
          exact Or.inl (Or.inl (Option.some.inj hu).symm)
        · exact Or.inr ⟨u, hut, hu⟩
    · rintro ((rfl | hb) | ⟨u, -, hu⟩)
      · exact Or.inr ⟨t, hold⟩
      · exact Or.inl hb
      · exact Or.inr ⟨u, hu⟩

/-- A thread takes the first node of the queue. -/
theorem NodesOwned.take (h : NodesOwned s (a :: ms)) (hlive : s'.live = s.live)
    (hold : s.holds t = none) (hnew : s'.holds t = some a)
    (hothers : ∀ u, u ≠ t → s'.holds u = s.holds u) : NodesOwned s' ms := by
  have hcases := holds_of_gets hold hnew hothers
  have hnot (u : Option Pid) : s.holds u ≠ some a := fun hu => h.held u a hu List.mem_cons_self
  obtain ⟨ha, hnodup⟩ := List.nodup_cons.mp h.nodup
  refine ⟨hnodup, fun u b hb => ?_, fun u v b hu hv => ?_, fun b => ?_⟩
  · rcases (hcases u b).mp hb with ⟨-, rfl⟩ | hb
    · exact ha
    · exact fun hmem => h.held u b hb (List.mem_cons_of_mem a hmem)
  · rcases (hcases u b).mp hu with ⟨rfl, rfl⟩ | hu <;>
      rcases (hcases v b).mp hv with ⟨hv, hba⟩ | hv
    · exact hv.symm
    · exact absurd hv (hnot v)
    · exact absurd (hba ▸ hu) (hnot u)
    · exact h.alone u v b hu hv
  · simp only [hcases]
    rw [hlive, h.live, List.mem_cons]
    constructor
    · rintro ((rfl | hb) | ⟨u, hu⟩)
      · exact Or.inr ⟨t, Or.inl ⟨rfl, rfl⟩⟩
      · exact Or.inl hb
      · exact Or.inr ⟨u, Or.inr hu⟩
    · rintro (hb | ⟨u, ⟨-, rfl⟩ | hu⟩)
      · exact Or.inl (Or.inr hb)
      · exact Or.inl (Or.inl rfl)
      · exact Or.inr ⟨u, hu⟩

/-- A thread frees its node. -/
theorem NodesOwned.free (h : NodesOwned s ns) (hold : s.holds t = some a)
    (hlive : s'.live = Function.update s.live a false) (hnew : s'.holds t = none)
    (hothers : ∀ u, u ≠ t → s'.holds u = s.holds u) : NodesOwned s' ns := by
  have hcases := holds_of_loses hnew hothers
  refine ⟨h.nodup, fun u b hb => h.held u b ((hcases u b).mp hb).2,
    fun u v b hu hv => h.alone u v b ((hcases u b).mp hu).2 ((hcases v b).mp hv).2, fun b => ?_⟩
  simp only [hcases]
  rw [hlive]
  by_cases hb : b = a
  · subst hb
    rw [Function.update_self]
    constructor
    · intro hf
      cases hf
    · rintro (hb | ⟨u, hut, hu⟩)
      · exact absurd hb (h.held t b hold)
      · exact absurd (h.alone u t b hu hold) hut
  · rw [Function.update_of_ne hb, h.live]
    constructor
    · rintro (hbn | ⟨u, hu⟩)
      · exact Or.inl hbn
      · refine Or.inr ⟨u, ?_, hu⟩
        rintro rfl
        rw [hold] at hu
        exact hb (Option.some.inj hu).symm
    · rintro (hbn | ⟨u, -, hu⟩)
      · exact Or.inl hbn
      · exact Or.inr ⟨u, hu⟩

end Owned

section Lock

variable {s s' : EventStore} {ns ms : List ℕ} {t : Option Pid} {a : ℕ} {p p' : ListProg EventNode}

theorem HeapOk.congr (h : HeapOk s ns) (hheap : s'.heap = s.heap) (hlock : s'.lock = s.lock)
    (hprog : ∀ u, s'.prog u = s.prog u) (htaking : ∀ u, s'.taking u = s.taking u) :
    HeapOk s' ns := by
  refine ⟨fun u q hq => ?_, fun hu => ?_, fun u hu => ?_⟩
  · rw [hlock]
    exact h.owner u q (by rw [← hprog]; exact hq)
  · rw [hheap]
    exact h.unlocked (by rw [← hlock]; exact hu)
  · rw [hheap, hprog, htaking]
    exact h.locked u (by rw [← hlock]; exact hu)

theorem LeavesQueue.congr {b : Bool} {r : Option EventNode} {h h' : Heap EventNode}
    (hl : LeavesQueue b ns r h) (he : ∀ x ∈ ringNodes ns, h' x = h x) :
    LeavesQueue b ns r h' := by
  cases b with
  | true =>
    rcases hl with ⟨rfl, hr, hring⟩ | ⟨a, ms, rfl, hr, hring⟩
    · exact Or.inl ⟨rfl, hr, hring.congr he⟩
    · refine Or.inr ⟨a, ms, rfl, hr, hring.congr fun x hx => he x ?_⟩
      rcases mem_ringNodes.mp hx with rfl | ⟨b, hb, rfl⟩
      · exact mem_ringNodes.mpr (Or.inl rfl)
      · exact mem_ringNodes.mpr (Or.inr ⟨b, List.mem_cons_of_mem a hb, rfl⟩)
  | false => exact ⟨hl.1, hl.2.1, hl.2.2.congr he⟩

/-- A store to a node that is in no list. -/
theorem HeapOk.alloc (h : HeapOk s ns) (ha : a ∉ ns) {node : Links EventNode}
    (hheap : s'.heap = Function.update s.heap (.event a) node) (hlock : s'.lock = s.lock)
    (hprog : ∀ u, s'.prog u = s.prog u) (htaking : ∀ u, s'.taking u = s.taking u) :
    HeapOk s' ns := by
  have hsame (x : EventNode) (hx : x ∈ ringNodes ns) : s'.heap x = s.heap x := by
    rw [hheap, Function.update_of_ne]
    rintro rfl
    exact event_notMem_ring ha hx
  have heq : Set.EqOn (cells s.heap) (cells s'.heap) (cellsOf (ringNodes ns)) := by
    rintro ⟨x, f⟩ hx
    cases f <;> simp only [cells, hsame x hx]
  refine ⟨fun u q hq => ?_, fun hu => ?_, fun u hu => ?_⟩
  · rw [hlock]
    exact h.owner u q (by rw [← hprog]; exact hq)
  · exact (h.unlocked (by rw [← hlock]; exact hu)).congr hsame
  · obtain ⟨q, r, m, hq, hw, hex, hl⟩ := h.locked u (by rw [← hlock]; exact hu)
    obtain ⟨m', hex', he'⟩ := exec_congr hw heq hex
    refine ⟨q, r, m', by rw [hprog]; exact hq, within_congr hw heq, hex', ?_⟩
    rw [htaking]
    refine hl.congr fun x hx => ?_
    simp only [ofCells]
    rw [← he' (x := (x, .next)) hx, ← he' (x := (x, .prev)) hx]

/-- `spin_lock`. -/
theorem HeapOk.spinLock (h : HeapOk s ns) (hfree : s.lock = none) (hheap : s'.heap = s.heap)
    (hlock : s'.lock = some t) (hprog : s'.prog t = some p)
    (hothers : ∀ u, u ≠ t → s'.prog u = s.prog u) {r : Option EventNode}
    {m : Cell EventNode → Ptr EventNode} (hex : p.exec (cells s.heap) = some (r, m))
    (hl : LeavesQueue (s'.taking t) ms r (ofCells m))
    (hw : p.Within (cellsOf (ringNodes ms)) (cells s.heap)) : HeapOk s' ms := by
  refine ⟨fun u q hq => ?_, fun hu => ?_, fun u hu => ?_⟩
  · by_cases hut : u = t
    · rw [hut]
      exact hlock
    · rw [hothers u hut] at hq
      cases hfree.symm.trans (h.owner u q hq)
  · cases hlock.symm.trans hu
  · obtain rfl : t = u := Option.some.inj (hlock.symm.trans hu)
    rw [hheap]
    exact ⟨p, r, m, hprog, hw, hex, hl⟩

/-- The next load or store of the owner of the lock. -/
theorem HeapOk.access (h : HeapOk s ns) (hp : s.prog t = some p)
    {m : Cell EventNode → Ptr EventNode} (hs : p.step (cells s.heap) = some (p', m))
    (hheap : s'.heap = ofCells m) (hlock : s'.lock = s.lock) (hprog : s'.prog t = some p')
    (hothers : ∀ u, u ≠ t → s'.prog u = s.prog u) (htaking : s'.taking t = s.taking t) :
    HeapOk s' ns := by
  have hown := h.owner t p hp
  have hcells : cells s'.heap = m := by rw [hheap, cells_ofCells]
  refine ⟨fun u q hq => ?_, fun hu => ?_, fun u hu => ?_⟩
  · by_cases hut : u = t
    · rw [hut, hlock]
      exact hown
    · rw [hothers u hut] at hq
      exact absurd (Option.some.inj ((h.owner u q hq).symm.trans hown)) hut
  · cases (hlock.symm.trans hu).symm.trans hown
  · obtain rfl : u = t := Option.some.inj ((hlock.symm.trans hu).symm.trans hown)
    obtain ⟨q, r, m', hq, hw, hex, hl⟩ := h.locked u hown
    obtain rfl : p = q := Option.some.inj (hp.symm.trans hq)
    rw [hcells, htaking]
    exact ⟨p', r, m', hprog, (within_step hw hs).1, (exec_step hs).trans hex, hl⟩

/-- What the owner of the lock leaves at its end. -/
theorem HeapOk.leaves (h : HeapOk s ns) {r : Option EventNode} (hp : s.prog t = some (.ret r)) :
    LeavesQueue (s.taking t) ns r s.heap := by
  obtain ⟨q, r', m, hq, -, hex, hl⟩ := h.locked t (h.owner t _ hp)
  obtain rfl : .ret r = q := Option.some.inj (hp.symm.trans hq)
  obtain ⟨rfl, rfl⟩ := Prod.mk.inj (Option.some.inj hex)
  exact hl

theorem HeapOk.spinUnlock (h : HeapOk s ns) {r : Option EventNode}
    (hp : s.prog t = some (.ret r)) (hring : EventRing s.heap ms) (hheap : s'.heap = s.heap)
    (hlock : s'.lock = none) (hprog : s'.prog t = none)
    (hothers : ∀ u, u ≠ t → s'.prog u = s.prog u) : HeapOk s' ms := by
  have hown := h.owner t _ hp
  refine ⟨fun u q hq => ?_, fun _ => by rw [hheap]; exact hring, fun u hu => ?_⟩
  · by_cases hut : u = t
    · rw [hut, hprog] at hq
      cases hq
    · rw [hothers u hut] at hq
      exact absurd (Option.some.inj ((h.owner u q hq).symm.trans hown)) hut
  · cases hlock.symm.trans hu

/-- A program in progress does not go through a bad pointer. -/
theorem HeapOk.ret_of_stuck (h : HeapOk s ns) (hp : s.prog t = some p)
    (hs : p.step (cells s.heap) = none) : ∃ r, p = .ret r := by
  obtain ⟨q, r, m, hq, -, hex, -⟩ := h.locked t (h.owner t p hp)
  obtain rfl : p = q := Option.some.inj (hp.symm.trans hq)
  cases p with
  | ret r => exact ⟨r, rfl⟩
  | load | store => cases hs
  | fault => cases hex

end Lock

end LinuxUms
