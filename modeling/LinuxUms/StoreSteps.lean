import LinuxUms.StoreRelation

namespace LinuxUms

open KernelList StoreProgram Handoff

namespace Device

variable {d d' : Device} {t : Pid}

/-- A step inside a call. -/
theorem reachable_run (hr : DeviceReachable d) (hs : d.step (.run t) = some d') :
    DeviceReachable d' ∧ d.Move t (d.pc t) d' := by
  have hr' : DeviceReachable d' := .tail (.run t) hr ⟨trivial, trivial⟩ hs
  exact ⟨hr', move_of_run hs (fault_of_reachable hr')⟩

/-- The insertion of thread `t` in its list. -/
theorem step_add (hr : DeviceReachable d) {l : ListId} (hadds : (d.pc t).adds = true)
    (hl : d.changes t = some l) :
    ∃ H, umsCompletionListAdd d.heap l t complistAddTail = some H ∧
      d.step (.run t) =
        some (({ d with heap := H }.log (.queued t l)).setPc t (d.pc t).added) := by
  have hadd {c : Call Pid} (hs : d.step (.run t) = some (d.addSelf t l c)) :
      ∃ H, umsCompletionListAdd d.heap l t complistAddTail = some H ∧
        d.step (.run t) =
          some (({ d with heap := H }.log (.queued t l)).setPc t (.schedule c)) := by
    obtain ⟨H, hH, he⟩ := addSelf_move l c (fault_of_reachable (reachable_run hr hs).1)
    exact ⟨H, hH, by rw [hs, he]⟩
  unfold changes at hl
  cases hpc : d.pc t with
  | enterAdd l' =>
    rw [hpc] at hl
    obtain rfl : l' = l := Option.some.inj hl
    apply hadd
    rw [step, hpc]
    rfl
  | yieldAdd =>
    rw [hpc] at hl
    obtain ⟨⟨x, k⟩, hw, hk⟩ := Option.bind_eq_some_iff.mp hl
    obtain rfl : k = some l := hk
    apply hadd
    rw [step, hpc, advance, hw]
  | _ =>
    rw [hpc] at hadds
    cases hadds

/-- The batch that a scheduler has after `ums_complist_next_context`, and what it may execute. -/
def nextTaken (d : Device) (t x : Pid) (H : Heap Node) : Option Node → Device
  | some (.context e) => { d with
      heap := H
      batches := Function.update d.batches t (handNext x e (d.batches t))
      }.ret t .nextContext .ok
  | _ => { d with
      heap := H
      batches := Function.update d.batches t (closeBatch x (d.batches t)).2
      ready := Function.update d.ready t (d.ready t ++ (closeBatch x (d.batches t)).1)
      }.ret t .nextContext .ok

section

variable (d : Device) (x : Pid) (H : Heap Node) (r : Option Node)

theorem nextTaken_pc : (d.nextTaken t x H r).pc = Function.update d.pc t .user := by
  unfold nextTaken
  split <;> rfl

theorem nextTaken_task : (d.nextTaken t x H r).task = d.task := by
  unfold nextTaken
  split <;> rfl

theorem nextTaken_heap : (d.nextTaken t x H r).heap = H := by
  unfold nextTaken
  split <;> rfl

theorem nextTaken_other {u : Pid} (hu : u ≠ t) :
    (d.nextTaken t x H r).batches u = d.batches u := by
  unfold nextTaken
  split <;> exact Function.update_of_ne hu _ d.batches

variable {d} {s : Device} (H' : Heap Node)

theorem nextTaken_self (hb : d.batches t = s.batches t) :
    (d.nextTaken t x H r).batches t = (s.nextTaken t x H' r).batches t := by
  unfold nextTaken
  split
  · show Function.update d.batches t _ t = Function.update s.batches t _ t
    rw [Function.update_self, Function.update_self, hb]
  · show Function.update d.batches t _ t = Function.update s.batches t _ t
    rw [Function.update_self, Function.update_self, hb]

theorem Same.nextTaken (h : Same s d) (hb : d.batches t = s.batches t) :
    Same (s.nextTaken t x H' r) (d.nextTaken t x H r) := by
  have hhist : (.ret t .nextContext .ok :: d.hist) = .ret t .nextContext .ok :: s.hist := by
    rw [h.hist]
  unfold Device.nextTaken
  split
  · exact ⟨h.worker, h.scheduler, h.ready, hhist, h.fault⟩
  · refine ⟨h.worker, h.scheduler, ?_, hhist, h.fault⟩
    show Function.update d.ready t _ = Function.update s.ready t _
    rw [hb, h.ready]

end

theorem step_next (hr : DeviceReachable d) {x : Pid} (hpc : d.pc t = .nextContext x) :
    ∃ r H, umsComplistNextContext d.heap x = some (r, H) ∧ (∀ l, r ≠ some (.head l)) ∧
      d.step (.run t) = some (d.nextTaken t x H r) := by
  have hs : d.step (.run t) = some (d.takeNext t x) := by
    rw [step, hpc]
    rfl
  have hf := fault_of_reachable (reachable_run hr hs).1
  rw [hs]
  unfold takeNext at hf ⊢
  split at hf
  · rename_i e H hnext
    exact ⟨_, H, hnext, by simp, rfl⟩
  · rename_i H hnext
    have hH : H = d.heap := by
      rw [umsComplistNextContext] at hnext
      split at hnext
      · exact (Prod.mk.inj (Option.some.inj hnext)).2.symm
      · cases htake : takeFirst d.heap (.context x) with
        | none =>
          rw [htake] at hnext
          cases hnext
        | some r =>
          rw [htake] at hnext
          cases hnext
    subst hH
    exact ⟨_, _, hnext, by simp, rfl⟩
  · exact crash_fault hf

/-- Thread `t` has taken all contexts of list `l`, with the first one, `c`, as the handle. -/
structure Taken (d : Device) (t : Pid) (l : ListId) (c : Pid) (d' : Device) : Prop where
  dev : DeviceReachable d'
  others : Others (some l) d t d'
  same : Same d d'
  pc : d'.pc t = .dqReturn
  batches : d'.batches t = [c] :: d.batches t
  task : ∀ u, u ≠ t → d'.task u = d.task u
  exec : (ListProg.pop (.head l)).exec (cells d.heap) = some (some (.context c), cells d'.heap)
  nil : d'.Linked (.head l) []
  owns : ∀ lock ms n, lock l = some t → d.Linked (.head l) ms →
    n ∈ .head l :: ms.map Node.context → Owns lock d' t n

theorem taken_of_dqTest (hr : DeviceReachable d) {l : ListId} (hpc : d.pc t = .dqTest l)
    (hne : listEmpty d.heap (.head l) = false) : ∃ c d', Taken d t l c d' := by
  have hs : d.step (.run t) = some (d.takeBatch t l) := by
    rw [step, hpc, advance, hne]
    rfl
  generalize d.takeBatch t l = d' at hs
  obtain ⟨hr', hm⟩ := reachable_run hr hs
  obtain ⟨σ, hI, -, hA⟩ := reachable_handoff hr
  have hothers := others_of_move hr hm
  rw [changes, hpc] at hothers
  have hlink := relink_of_move hA hI hm
  rw [hpc] at hm
  cases hm with
  | dqSleep l he => cases hne.symm.trans he
  | dqTake l c H he htake =>
  cases hlink with
  | add _ hadds | next _ _ _ hadds | close _ hadds =>
    rw [hpc] at hadds
    cases hadds
  | keep _ _ _ hb =>
    have hself := congrFun hb t
    simp at hself
  | take k x cs hk hq hf hh hb =>
    obtain rfl : k = l := Pc.dqTest.inj (hk.symm.trans hpc)
    obtain rfl : x = c := by
      have hself := congrFun hb t
      simpa [eq_comm] using hself
    have hnil : Linked _ (.head k) [] :=
      linked_of_family hf (by rw [Function.update_of_ne (by simp), Function.update_self]; rfl)
    have hcs : Linked _ (.context x) cs :=
      linked_of_family hf (Function.update_self _ _ _)
    refine ⟨x, _, hr', hothers, ⟨rfl, rfl, rfl, rfl, rfl⟩, Function.update_self _ _ _,
      Function.update_self _ _ _, fun _ _ => rfl, ?_, hnil, fun lock ms n hlock hms hn => ?_⟩
    · have htake' : takeFirst d.heap (.head k) = some (.context x, H) := htake
      rw [exec_pop, hne, htake']
      rfl
    · rw [hms.queue_eq hA, hq] at hn
      rcases List.mem_cons.mp hn with rfl | hn
      · exact Or.inl ⟨k, [], hlock, hnil, List.mem_cons_self⟩
      · refine Or.inr (Or.inl ⟨x, cs, ?_, hcs, hn⟩)
        rw [hb, Function.update_self]
        exact (isHandle_cons x [x] _).mpr (Or.inl rfl)

/-- The same after a wait, which ends first. -/
theorem taken_of_dqWait (hr : DeviceReachable d) {l : ListId} (hpc : d.pc t = .dqWait l)
    (hne : listEmpty d.heap (.head l) = false) : ∃ c d', Taken d t l c d' := by
  have hs : d.step (.run t) = some ((d.setTask t .running).setPc t (.dqTest l)) := by
    rw [step, hpc, advance, hne]
    rfl
  obtain ⟨hr₁, hm⟩ := reachable_run hr hs
  have hothers := others_of_move hr hm
  rw [changes, hpc] at hothers
  obtain ⟨c, d', hd'⟩ := taken_of_dqTest hr₁ (Function.update_self _ _ _) hne
  refine ⟨c, d', hd'.dev, hothers.after hd'.others, ?_, hd'.pc, hd'.batches, fun u hu => ?_,
    hd'.exec, hd'.nil, hd'.owns⟩
  · exact ⟨hd'.same.worker, hd'.same.scheduler, hd'.same.ready, hd'.same.hist, hd'.same.fault⟩
  · exact (hd'.task u hu).trans (Function.update_of_ne hu _ _)

end Device

theorem exec_umsCompletionListAddProg (h : Heap Node) (l : ListId) (c : Pid) (flags : ℕ) :
    (umsCompletionListAddProg l c flags).exec (cells h) =
      (umsCompletionListAdd h l c flags).map (fun h' => (none, cells h')) := by
  unfold umsCompletionListAddProg umsCompletionListAdd
  split
  · rw [exec_listAdd]
    cases listAdd h (.context c) (.head l) <;> rfl
  · split
    · rw [exec_listAddTail]
      cases listAddTail h (.context c) (.head l) <;> rfl
    · rfl

section Steps

variable {s s' : StoreDevice} {d d' : Device} {F : Pid → Set (Cell Node)}
  {q : Pid → ListProg Node} {t u : Pid}

theorem prog_update (place : Pid → ListPlace) (t : Pid) (x : ListPlace) :
    (fun u => (Function.update place t x u).prog) =
      Function.update (fun u => (place u).prog) t x.prog := by
  funext u
  by_cases hu : u = t
  · rw [hu, Function.update_self, Function.update_self]
  · rw [Function.update_of_ne hu, Function.update_of_ne hu]

/-- The nodes of two threads are apart. -/
theorem disjoint_of_owns (hr : DeviceReachable d) {lock : ListId → Option Pid}
    {G G' : Set (Cell Node)} (hG : ∀ c ∈ G, Owns lock d t c.1)
    (hG' : ∀ c ∈ G', Owns lock d u c.1) (hu : u ≠ t) : Disjoint G G' := by
  rw [Set.disjoint_left]
  intro c hc hc'
  exact hu (Device.owns_unique hr (hG' c hc') (hG c hc))

theorem ThreadAt.idle {G : Set (Cell Node)} {g : ListProg Node} {x : ListPlace} {c : Pc}
    (h : ThreadAt s d t G g x c) (hx : ∀ p, x ≠ .body p) : G = ∅ ∧ g = .ret none := by
  cases h with
  | out | wake | wait => exact ⟨rfl, rfl⟩
  | add G p | take G p | empty G p | next G p => exact absurd rfl (hx p)

theorem ListPlace.prog_eq {x : ListPlace} (hx : ∀ p, x ≠ .body p) : x.prog = .ret none := by
  cases x with
  | body p => exact absurd rfl (hx p)
  | _ => rfl

/-- A thread goes from one place without loads and stores to another. -/
theorem StoreSim.pool_idle (h : StoreSim s d F q) (ht : ∀ p, s.place t ≠ .body p) {x : ListPlace}
    (hx : ∀ p, x ≠ .body p) :
    Pool (Function.update F t ∅) (fun u => (Function.update s.place t x u).prog)
      (Function.update q t (.ret none)) (cells s.dev.heap) (cells d.heap) := by
  obtain ⟨hF, hq⟩ := (h.thread t).idle ht
  rw [prog_update, ListPlace.prog_eq hx, ← ListPlace.prog_eq ht, ← hF,
    Function.update_eq_self t fun u => (s.place u).prog, Function.update_eq_self,
    ListPlace.prog_eq ht, ← hq, Function.update_eq_self]
  exact h.pool

/-- The loads and stores of `t` are done. -/
theorem StoreSim.pool_done (h : StoreSim s d F q) {r r' : Option Node} {n : Cell Node → Ptr Node}
    (hp : s.place t = .body (.ret r)) (hq : (q t).exec (cells d.heap) = some (r', n))
    {x : ListPlace} (hx : ∀ p, x ≠ .body p) :
    r = r' ∧ Pool (Function.update F t ∅) (fun u => (Function.update s.place t x u).prog)
      (Function.update q t (.ret none)) (cells s.dev.heap) n := by
  obtain ⟨r₁, n₁, hq₁, hpool, -⟩ := h.pool.ahead t
  obtain ⟨rfl, rfl⟩ := Prod.mk.inj (Option.some.inj (hq₁.symm.trans hq))
  rw [prog_update, ListPlace.prog_eq hx]
  have hdone := hpool.finish (r := r) (by rw [hp]; rfl) (Function.update_self _ _ _) none
  rw [Function.update_idem] at hdone
  exact hdone

theorem StoreSim.not_waiting (h : StoreSim s d F q) (hp : (s.place t).inQueue = false)
    (l : ListId) : t ∉ s.waiters l := by
  intro hl
  have hq := (h.waiters l t hl).1
  rw [hp] at hq
  cases hq

/-- A step of `t` that is none in the device `d`. -/
theorem StoreSim.stutter (h : StoreSim s d F q) (s' : StoreDevice) (G : Set (Cell Node))
    (g : ListProg Node) (hs : Leaves s t s')
    (hpool : Pool (Function.update F t G) (fun u => (s'.place u).prog) (Function.update q t g)
      (cells s'.dev.heap) (cells d.heap))
    (hsame : Device.Same s'.dev d) (hself : SelfAt s' d t G g)
    (htask : ∀ u, u ≠ t → (∀ l, d.pc u ≠ .dqWait l) → s'.dev.task u = s.dev.task u)
    (hwait : Queues s t s') :
    StoreSim s' d (Function.update F t G) (Function.update q t g) := by
  refine h.of_step s' G g hs (Device.Others.refl none d t) (by simp) (by simp) h.dev hpool hsame
    hself ?_ hwait
  intro u hu
  refine ⟨Or.inl rfl, fun hpc ht => ?_⟩
  rw [htask u hu hpc]
  exact ht

/-- A load or store. -/
theorem sim_access (h : StoreSim s d F q) {p p' : ListProg Node} {m : Cell Node → Ptr Node}
    (hp : s.place t = .body p) (hm : p.step (cells s.dev.heap) = some (p', m)) :
    StoreSim ((s.setDev { s.dev with heap := ofCells m }).goto t (.body p')) d F q := by
  have hthread := h.thread t
  rw [hp] at hthread
  have hsim := h.stutter ((s.setDev { s.dev with heap := ofCells m }).goto t (.body p')) (F t) (q t)
    ⟨fun _ _ => rfl, fun _ _ => rfl, fun u hu => Function.update_of_ne hu _ _, fun _ _ _ h => h,
      fun _ _ h => h, fun _ _ => rfl⟩ ?_
    ⟨h.same.worker, h.same.scheduler, h.same.ready, h.same.hist, h.same.fault⟩ ?_
    (fun _ _ _ => rfl) (.keep h (by simp [hp]) rfl)
  · rwa [Function.update_eq_self, Function.update_eq_self] at hsim
  · rw [Function.update_eq_self, Function.update_eq_self]
    show Pool F (fun u => (Function.update s.place t (.body p') u).prog) q (cells (ofCells m)) _
    rw [prog_update, cells_ofCells]
    apply h.pool.step
    rw [hp]
    exact hm
  · refine ⟨?_, h.owned t, h.task t, h.signal t, fun l hl => ?_, not_rests_goto rfl⟩
    · show ThreadAt _ d t (F t) (q t) (Function.update s.place t (.body p') t) (s.dev.pc t)
      rw [Function.update_self]
      exact hthread.body p' rfl rfl rfl
    · exact absurd hl (h.not_waiting (by rw [hp]; rfl) l)

theorem ThreadAt.of_out {G : Set (Cell Node)} {g : ListProg Node} {c : Pc}
    (h : ThreadAt s d t G g .out c) : G = ∅ ∧ d.pc t = c ∧ d.batches t = s.dev.batches t ∧
      ∀ l, c = .dqWait l → s.dev.task t = .running := by
  cases h with
  | out c hpc hb hrun => exact ⟨rfl, hpc, hb, hrun⟩
  | wait x l hx => cases hx

theorem StoreSim.of_out (h : StoreSim s d F q) (hout : s.place t = .out) :
    F t = ∅ ∧ d.pc t = s.dev.pc t ∧ d.batches t = s.dev.batches t ∧
      ∀ l, s.dev.pc t = .dqWait l → s.dev.task t = .running := by
  have hthread := h.thread t
  rw [hout] at hthread
  exact hthread.of_out

theorem StoreSim.changes_eq (h : StoreSim s d F q) (hpc : d.pc t = s.dev.pc t) :
    d.changes t = s.dev.changes t := by
  rw [Device.changes, Device.changes, hpc, h.same.worker]

/-- A program begins in nodes that are free for thread `t`. -/
theorem StoreSim.pool_start (h : StoreSim s d F q) {lock : ListId → Option Pid}
    (hlock : ∀ u l, s.lock l = some u → lock l = some u) {G : Set (Cell Node)}
    (hG : ∀ c ∈ G, Owns lock d t c.1) (ht : F t = ∅) {p : ListProg Node} {r : Option Node}
    {n : Cell Node → Ptr Node} (hw : p.Within G (cells d.heap))
    (hp : p.exec (cells d.heap) = some (r, n)) :
    Pool (Function.update F t G) (fun u => (Function.update s.place t (.body p) u).prog)
      (Function.update q t p) (cells s.dev.heap) (cells d.heap) := by
  rw [prog_update]
  refine h.pool.start (fun u hu => ?_) ht hw hp
  refine disjoint_of_owns h.dev hG (fun c hc => ?_) hu
  exact (h.owned u c hc).imp_left fun ⟨l, ms, hl, hrest⟩ => ⟨l, ms, hlock u l hl, hrest⟩

theorem lock_mono {l : ListId} (hfree : s.lock l = none) (u : Pid) (k : ListId)
    (hk : s.lock k = some u) : Function.update s.lock l (some t) k = some u := by
  refine (Function.update_of_ne ?_ _ _).trans hk
  rintro rfl
  cases hfree.symm.trans hk

/-- `spin_lock` is given to one thread, and changes nothing for the others. -/
theorem Leaves.spinLock (s : StoreDevice) (t : Pid) {l : ListId} (hfree : s.lock l = none)
    (x : ListPlace) :
    Leaves s t ({ s with lock := Function.update s.lock l (some t) }.goto t x) :=
  ⟨fun _ _ => rfl, fun _ _ => rfl, fun _ hu => Function.update_of_ne hu _ _,
    fun u _ k hk => lock_mono hfree u k hk, fun _ _ h => h, fun _ _ => rfl⟩

/-- `spin_lock` in `ums_completion_list_add`. -/
theorem sim_lockAdd (h : StoreSim s d F q) (hout : s.place t = .out)
    (hadds : (s.dev.pc t).adds = true) {l : ListId} (hl : s.dev.changes t = some l)
    (hfree : s.lock l = none) :
    ∃ F' q', StoreSim ({ s with lock := Function.update s.lock l (some t) }.goto t
      (.body (umsCompletionListAddProg l t complistAddTail))) d F' q' := by
  obtain ⟨hF, hpc, hb, -⟩ := h.of_out hout
  have hdl : d.changes t = some l := (h.changes_eq hpc).trans hl
  have hdadds : (d.pc t).adds = true := by rw [hpc]; exact hadds
  obtain ⟨σ, -, -, hA⟩ := reachable_handoff h.dev
  obtain ⟨H, hH, -⟩ := Device.step_add h.dev hdadds hdl
  have hring : d.Linked (.head l) (σ.queue l) := hA.queue_ring l
  -- the last node of the list, which is the head if the list is empty
  obtain ⟨b, hmem, hprev, hlast⟩ := ring_last hring
  let G : Set (Cell Node) := tailCells (.head l) (.context t) b
  have hown (c : Cell Node) (hc : c ∈ G) :
      Owns (Function.update s.lock l (some t)) d t c.1 := by
    have hlist (n : Node) (hn : n ∈ .head l :: (σ.queue l).map Node.context) :
        Owns (Function.update s.lock l (some t)) d t n :=
      Or.inl ⟨l, _, Function.update_self _ _ _, hring, hn⟩
    rcases hc with rfl | rfl | rfl | rfl
    · exact hlist _ List.mem_cons_self
    · exact Or.inr (Or.inr ⟨hdadds, rfl⟩)
    · exact Or.inr (Or.inr ⟨hdadds, rfl⟩)
    · exact hlist _ hmem
  have hw : (umsCompletionListAddProg l t complistAddTail).Within G (cells d.heap) :=
    within_listAddTail hprev (.context t) none
  have hhead (k : ListId) (hG : (Node.head k, Field.next) ∈ G) :
      k = l ∧ d.Linked (.head l) [] := by
    have hbk : b = .head k := by simpa [G, tailCells, eq_comm] using hG
    obtain rfl : k = l := by simpa [hbk] using hmem
    rw [Device.Linked, hlast hbk] at hring
    exact ⟨rfl, hring⟩
  have hexec : (umsCompletionListAddProg l t complistAddTail).exec (cells d.heap) =
      some (none, cells H) := by
    rw [exec_umsCompletionListAddProg, hH]
    rfl
  refine ⟨_, _, h.stutter _ G (umsCompletionListAddProg l t complistAddTail)
    (.spinLock s t hfree _) (h.pool_start (lock_mono hfree) hown hF hw hexec) h.same ?_
    (fun _ _ _ => rfl) (.keep h (by simp [hout]) rfl)⟩
  refine ⟨?_, hown, h.task t, h.signal t, fun k hk => ?_, not_rests_goto rfl⟩
  · show ThreadAt _ d t _ _ (Function.update s.place t _ t) (s.dev.pc t)
    rw [Function.update_self]
    exact .add _ _ _ l hadds hdl (Function.update_self _ _ _) hhead hpc hb
  · exact absurd hk (h.not_waiting (by rw [hout]; rfl) k)

theorem exec_pop_context (h : Heap Node) (x : Pid) :
    (ListProg.pop (.context x)).exec (cells h) =
      (umsComplistNextContext h x).map (fun r => (r.1, cells r.2)) := by
  rw [exec_pop, umsComplistNextContext]
  split
  · rfl
  · cases takeFirst h (.context x) <;> rfl

/-- The nodes of a ring, for a program that reads and writes it. -/
theorem within_pop {h : Heap Node} {a : Node} {l : List Node} (hr : Ring h a l) :
    (ListProg.pop a).Within (cellsOf {n | n ∈ a :: l}) (cells h) :=
  within_of_ring hr (fun _ hn => hn) (keeps_pop List.mem_cons_self)

/-- `ums_complist_next_context` has no lock to take. -/
theorem sim_enterNext (h : StoreSim s d F q) (hout : s.place t = .out) {x : Pid}
    (hx : s.dev.pc t = .nextContext x) :
    ∃ F' q', StoreSim (s.goto t (.body (ListProg.pop (.context x)))) d F' q' := by
  obtain ⟨hF, hpc, hb, -⟩ := h.of_out hout
  rw [hx] at hpc
  obtain ⟨σ, hI, -, hA⟩ := reachable_handoff h.dev
  have hhandle : IsHandle x (d.batches t) := by
    have hok := hA.pc t
    rwa [hpc] at hok
  have hring : d.Linked (.context x) (σ.rest x) :=
    hA.rest_ring x t (hI.handed_of_handle t x (by rw [hA.batches]; exact hhandle))
  have hown (c : Cell Node)
      (hc : c ∈ cellsOf {n | n ∈ Node.context x :: (σ.rest x).map Node.context}) :
      Owns s.lock d t c.1 := Or.inr (Or.inl ⟨x, _, hhandle, hring, hc⟩)
  obtain ⟨r, H, hH, -⟩ := Device.step_next h.dev hpc
  have hexec : (ListProg.pop (.context x)).exec (cells d.heap) = some (r, cells H) := by
    rw [exec_pop_context, hH]
    rfl
  refine ⟨_, _, h.stutter _ _ (ListProg.pop (.context x))
    ⟨fun _ _ => rfl, fun _ _ => rfl, fun _ hu => Function.update_of_ne hu _ _, fun _ _ _ h => h,
      fun _ _ h => h, fun _ _ => rfl⟩
    (h.pool_start (fun _ _ h => h) hown hF (within_pop hring) hexec) h.same ?_
    (fun _ _ _ => rfl) (.keep h (by simp [hout]) rfl)⟩
  refine ⟨?_, hown, h.task t, h.signal t, fun k hk => ?_, not_rests_goto rfl⟩
  · show ThreadAt _ d t _ _ (Function.update s.place t _ t) (s.dev.pc t)
    rw [Function.update_self, hx]
    exact .next _ _ x (fun k hk => by simp [cellsOf] at hk) hpc hb
  · exact absurd hk (h.not_waiting (by rw [hout]; rfl) k)

/-- `spin_lock` in `do_dequeue_ums_complist_context`: what the list has at that time is taken. -/
theorem sim_lockDequeue (h : StoreSim s d F q) (hout : s.place t = .out) {l : ListId}
    (hc : s.dev.pc t = .dqTest l ∨ s.dev.pc t = .dqWait l) (hfree : s.lock l = none) :
    ∃ d' F' q', StoreSim ({ s with lock := Function.update s.lock l (some t) }.goto t
      (.body (ListProg.pop (.head l)))) d' F' q' := by
  obtain ⟨hF, hpc, hb, hrun⟩ := h.of_out hout
  obtain ⟨σ, -, -, hA⟩ := reachable_handoff h.dev
  have hring : d.Linked (.head l) (σ.queue l) := hA.queue_ring l
  have hlock : Function.update s.lock l (some t) l = some t := Function.update_self _ _ _
  have hown (c : Cell Node)
      (hc : c ∈ cellsOf {n | n ∈ Node.head l :: (σ.queue l).map Node.context}) :
      Owns (Function.update s.lock l (some t)) d t c.1 := Or.inl ⟨l, _, hlock, hring, hc⟩
  have hhead (k : ListId) (hk : (Node.head k, Field.next) ∈
      cellsOf {n | n ∈ Node.head l :: (σ.queue l).map Node.context}) : k = l := by
    simpa [cellsOf] using hk
  have hwaiters (k : ListId) (hk : t ∈ s.waiters k) : False :=
    h.not_waiting (by rw [hout]; rfl) k hk
  have hawake : s.dev.task t = .running := by
    rcases hc with hc | hc
    · rw [← h.task t (by rw [hpc, hc]; simp)]
      exact Device.awake_of_reachable h.dev t (by rw [hpc, hc]; rfl)
    · exact hrun l hc
  cases he : listEmpty d.heap (.head l) with
  | true =>
    have hnil : d.Linked (.head l) [] := by
      rw [← (hA.listEmpty_head l).mp he]
      exact hring
    have hexec : (ListProg.pop (.head l)).exec (cells d.heap) = some (none, cells d.heap) := by
      rw [exec_pop, he]
      rfl
    obtain ⟨r, n, hn, hpool, -⟩ :=
      (h.pool_start (lock_mono hfree) hown hF (within_pop hring) hexec).ahead t
    rw [Function.update_self] at hn
    obtain ⟨rfl, rfl⟩ := Prod.mk.inj (Option.some.inj (hn.symm.trans hexec))
    rw [Function.update_idem] at hpool
    refine ⟨d, _, _, h.stutter _ _ (.ret none) (.spinLock s t hfree _) hpool h.same ?_
      (fun _ _ _ => rfl) (.keep h (by simp [hout]) rfl)⟩
    refine ⟨?_, hown, h.task t, h.signal t, fun k hk => (hwaiters k hk).elim, not_rests_goto rfl⟩
    show ThreadAt _ d t _ _ (Function.update s.place t _ t) (s.dev.pc t)
    rw [Function.update_self]
    exact .empty _ _ _ l hc hlock hhead hnil hpc hb hawake
  | false =>
    obtain ⟨c, d', hd'⟩ : ∃ c d', Device.Taken d t l c d' := by
      rcases hc with hc | hc
      · exact Device.taken_of_dqTest h.dev (hpc.trans hc) he
      · exact Device.taken_of_dqWait h.dev (hpc.trans hc) he
    obtain ⟨r, n, hn, hpool, -⟩ :=
      (h.pool_start (lock_mono hfree) hown hF (within_pop hring) hd'.exec).ahead t
    rw [Function.update_self] at hn
    obtain ⟨rfl, rfl⟩ := Prod.mk.inj (Option.some.inj (hn.symm.trans hd'.exec))
    rw [Function.update_idem] at hpool
    have hL (k : ListId) (u : Pid) (_ : u ≠ t) (hk : s.lock k = some u) : some l ≠ some k := by
      rintro ⟨⟩
      cases hfree.symm.trans hk
    refine ⟨d', _, _, h.of_step _ _ (.ret (some (.context c))) (.spinLock s t hfree _) hd'.others hL
      (fun k hk => Or.inl (Option.some.inj hk ▸ hd'.nil)) hd'.dev hpool ?_ ?_ ?_
      (.keep h (by simp [hout]) rfl)⟩
    · exact ⟨hd'.same.worker.trans h.same.worker, hd'.same.scheduler.trans h.same.scheduler,
        hd'.same.ready.trans h.same.ready, hd'.same.hist.trans h.same.hist,
        hd'.same.fault.trans h.same.fault⟩
    · refine ⟨?_, fun n hn => hd'.owns _ _ n.1 hlock hring hn, fun _ => ?_, fun hs => ?_,
        fun k hk => (hwaiters k hk).elim, not_rests_goto rfl⟩
      · show ThreadAt _ d' t _ _ (Function.update s.place t _ t) (s.dev.pc t)
        rw [Function.update_self]
        refine .take _ _ _ l c hc hlock hhead hd'.nil hd'.pc ?_
        rw [hd'.batches, hb]
        rfl
      · exact (Device.awake_of_reachable hd'.dev t (by rw [hd'.pc]; rfl)).trans hawake.symm
      · refine ⟨(h.signal t hs).1, fun ⟨k, hk⟩ => ?_⟩
        rw [hd'.pc] at hk
        cases hk
    · intro u hu
      exact ⟨Or.inl (hd'.task u hu), fun _ ht => (hd'.task u hu).trans ht⟩

/-- `spin_unlock` changes nothing for the others. -/
theorem lock_release {l : ListId} (hl : s.lock l = some t) (hu : u ≠ t) (k : ListId)
    (hk : s.lock k = some u) : Function.update s.lock l none k = some u := by
  refine (Function.update_of_ne ?_ _ _).trans hk
  rintro rfl
  exact hu (Option.some.inj (hk.symm.trans hl))

theorem lock_other {l : ListId} (hl : s.lock l = some t) (k : ListId) (u : Pid) (hu : u ≠ t)
    (hk : s.lock k = some u) : some l ≠ some k := by
  rintro ⟨⟩
  exact hu (Option.some.inj (hk.symm.trans hl))

theorem complist_of_adds (hr : DeviceReachable d) {l : ListId} (hadds : (d.pc t).adds = true)
    (hl : d.changes t = some l) : (d.worker t).map Worker.complist = some (some l) := by
  obtain ⟨σ, -, -, hA⟩ := reachable_handoff hr
  have hok := hA.pc t
  unfold Device.changes at hl
  generalize d.pc t = c at hadds hl hok
  cases c with
  | enterAdd l' =>
    obtain ⟨-, w, hw, hwl, -⟩ := hok
    obtain rfl : l' = l := Option.some.inj hl
    rw [hw]
    exact congrArg some hwl
  | yieldAdd =>
    obtain ⟨w, hw, hwl⟩ := Option.bind_eq_some_iff.mp hl
    rw [hw]
    exact congrArg some hwl
  | _ => cases hadds

theorem listOf_of_changes {l : ListId} (h : d.changes t = some l) : d.listOf t = some l := by
  unfold Device.changes at h
  unfold Device.listOf
  generalize d.pc t = c at h ⊢
  cases c with
  | enterAdd | yieldAdd | dqTest => exact h
  | _ => cases h

/-- `spin_unlock` in `ums_completion_list_add`: the context is in the list now. -/
theorem sim_leaveAdd (h : StoreSim s d F q) {r : Option Node} (hp : s.place t = .body (.ret r))
    {l : ListId} (hadds : (s.dev.pc t).adds = true) (hl : d.changes t = some l)
    (hlock : s.lock l = some t) (hpc : d.pc t = s.dev.pc t)
    (hb : d.batches t = s.dev.batches t) (hq : q t = umsCompletionListAddProg l t complistAddTail) :
    ∃ d' F' q', StoreSim (s.leaveAdd t l) d' F' q' := by
  have hdadds : (d.pc t).adds = true := by rw [hpc]; exact hadds
  obtain ⟨H, hH, hs⟩ := Device.step_add h.dev hdadds hl
  obtain ⟨hr', hm⟩ := Device.reachable_run h.dev hs
  have hothers := Device.others_of_move h.dev hm
  rw [hl] at hothers
  have hexec : (q t).exec (cells d.heap) = some (none, cells H) := by
    rw [hq, exec_umsCompletionListAddProg, hH]
    rfl
  have hpool := (h.pool_done hp hexec (x := .wake) (by simp)).2
  have hnot (k : ListId) : s.dev.pc t ≠ .dqWait k := by
    intro hk
    rw [hk] at hadds
    cases hadds
  refine ⟨_, _, _, h.of_step (s.leaveAdd t l) ∅ (.ret none) ⟨fun _ _ => rfl, fun _ _ => rfl,
      fun u hu => Function.update_of_ne hu _ _, fun u hu k hk => lock_release hlock hu k hk,
      fun _ _ h => h, fun _ _ => rfl⟩ hothers (lock_other hlock) ?_ hr' hpool
    ⟨h.same.worker, h.same.scheduler, h.same.ready, congrArg (_ :: ·) h.same.hist, h.same.fault⟩
    ?_ (fun _ _ => ⟨Or.inl rfl, fun _ h => h⟩) (.keep h (by simp [hp]) rfl)⟩
  · rintro k ⟨⟩
    refine Or.inr ⟨Function.update_self _ _ _, ?_⟩
    exact listOf_of_changes ((h.changes_eq hpc).symm.trans hl)
  refine ⟨?_, by simp, fun _ => ?_, fun hsig => ?_, fun k hk => ?_, not_rests_goto rfl⟩
  · show ThreadAt _ _ t _ _ (Function.update s.place t _ t) (s.dev.pc t)
    rw [Function.update_self]
    refine .wake _ l hadds (complist_of_adds h.dev hdadds hl) ?_ hb
    rw [← hpc]
    exact Function.update_self _ _ _
  · exact h.task t (by rw [hpc]; exact hnot)
  · obtain ⟨⟨k, hk⟩, -⟩ := h.signal t hsig
    exact absurd hk (hnot k)
  · exact absurd hk (h.not_waiting (by rw [hp]; rfl) k)

/-- `spin_unlock` in `do_dequeue_ums_complist_context`, with the first context of the list. -/
theorem sim_leaveTaken (h : StoreSim s d F q) {r : Option Node} (hp : s.place t = .body (.ret r))
    {l : ListId} {x : Pid} (hlock : s.lock l = some t) (hpc : d.pc t = .dqReturn)
    (hb : d.batches t = [x] :: s.dev.batches t) (hq : q t = .ret (some (.context x))) :
    ∃ F' q', StoreSim (s.leaveDequeue t l r) d F' q' := by
  have hexec : (q t).exec (cells d.heap) = some (some (.context x), cells d.heap) := by
    rw [hq]
    rfl
  obtain ⟨rfl, hpool⟩ := h.pool_done hp hexec (x := .out) (by simp)
  have hleaves : Leaves s t (s.leaveDequeue t l (some (.context x))) :=
    ⟨fun u hu => Function.update_of_ne hu _ s.dev.pc,
      fun u hu => Function.update_of_ne hu _ s.dev.batches,
      fun u hu => Function.update_of_ne hu _ s.place, fun u hu k hk => lock_release hlock hu k hk,
      fun _ _ h => h, fun u hu => Function.update_of_ne hu _ s.signalled⟩
  refine ⟨_, _, h.stutter (s.leaveDequeue t l (some (.context x))) ∅ (.ret none) hleaves hpool
    ⟨h.same.worker, h.same.scheduler, h.same.ready, h.same.hist, h.same.fault⟩
    ?_ (fun _ _ _ => rfl) (.keep h (by simp [hp]) rfl)⟩
  refine ⟨?_, by simp, h.task t, fun hsig => ?_, fun k hk => ?_, not_rests_goto rfl⟩
  · show ThreadAt _ d t _ _ (Function.update s.place t _ t) (Function.update s.dev.pc t _ t)
    rw [Function.update_self, Function.update_self]
    refine .out _ hpc ?_ (fun _ hk => by cases hk)
    rw [hb]
    exact (Function.update_self t _ s.dev.batches).symm
  · have hsig' : Function.update s.signalled t false t = true := hsig
    rw [Function.update_self] at hsig'
    cases hsig'
  · exact absurd hk (h.not_waiting (by rw [hp]; rfl) k)

/-- `spin_unlock` before the wait, as the list is empty. -/
theorem sim_leaveEmpty (h : StoreSim s d F q) {r : Option Node} (hp : s.place t = .body (.ret r))
    {l : ListId} (hc : s.dev.pc t = .dqTest l ∨ s.dev.pc t = .dqWait l) (hlock : s.lock l = some t)
    (hnil : d.Linked (.head l) []) (hpc : d.pc t = s.dev.pc t)
    (hb : d.batches t = s.dev.batches t) (hrun : s.dev.task t = .running)
    (hq : q t = .ret none) : ∃ d' F' q', StoreSim (s.leaveDequeue t l r) d' F' q' := by
  have hexec : (q t).exec (cells d.heap) = some (none, cells d.heap) := by
    rw [hq]
    rfl
  obtain ⟨rfl, hpool⟩ := h.pool_done hp hexec (x := .first) (by simp)
  have hleaves : Leaves s t (s.leaveDequeue t l none) :=
    ⟨fun u hu => Function.update_of_ne hu _ _, fun _ _ => rfl,
      fun u hu => Function.update_of_ne hu _ _, fun u hu k hk => lock_release hlock hu k hk,
      fun _ _ h => h, fun _ _ => rfl⟩
  have hself (d' : Device) (hpc' : d'.pc t = .dqWait l) (hb' : d'.batches t = s.dev.batches t)
      (hsig : s.signalled t = true → d'.task t = .running) :
      SelfAt (s.leaveDequeue t l none) d' t ∅ (.ret none) := by
    refine ⟨?_, by simp, fun hne => absurd hpc' (hne l), fun hs => ⟨⟨l, ?_⟩, fun _ => hsig hs⟩,
      fun k hk => absurd hk (h.not_waiting (by rw [hp]; rfl) k), not_rests_goto rfl⟩
    · show ThreadAt _ d' t _ _ (Function.update s.place t _ t) (Function.update s.dev.pc t _ t)
      rw [Function.update_self, Function.update_self]
      exact .wait .first l rfl hpc' hb' (fun _ => hrun) (by simp)
    · exact Function.update_self _ _ _
  rcases hc with hc | hc
  · have he : listEmpty d.heap (.head l) = true := (listEmpty_ring _ _ _ hnil).mpr rfl
    have hs : d.step (.run t) = some ((d.setTask t .interruptible).setPc t (.dqWait l)) := by
      rw [Device.step, hpc, hc, Device.advance, he]
      rfl
    obtain ⟨hr', hm⟩ := Device.reachable_run h.dev hs
    have hothers := Device.others_of_move h.dev hm
    rw [Device.changes, hpc, hc] at hothers
    refine ⟨_, _, _, h.of_step (s.leaveDequeue t l none) ∅ (.ret none) hleaves hothers
      (lock_other hlock) (fun k hk => Or.inl (Option.some.inj hk ▸ hnil)) hr' hpool
      ⟨h.same.worker, h.same.scheduler, h.same.ready, h.same.hist, h.same.fault⟩
      (hself _ (Function.update_self _ _ _) hb ?_) (fun u hu => ?_)
      (.keep h (by simp [hp]) rfl)⟩
    · intro hsig
      obtain ⟨⟨k, hk⟩, -⟩ := h.signal t hsig
      cases hc.symm.trans hk
    · have htu : Function.update d.task t .interruptible u = d.task u :=
        Function.update_of_ne hu _ _
      exact ⟨Or.inl htu, fun _ ht => htu.trans ht⟩
  · refine ⟨d, _, _, h.stutter (s.leaveDequeue t l none) ∅ (.ret none) hleaves hpool
      ⟨h.same.worker, h.same.scheduler, h.same.ready, h.same.hist, h.same.fault⟩
      (hself d (hpc.trans hc) hb fun hsig => (h.signal t hsig).2 ⟨l, hpc.trans hc⟩)
      (fun _ _ _ => rfl) (.keep h (by simp [hp]) rfl)⟩

theorem leaveNext_eq (s : StoreDevice) (t x : Pid) {r : Option Node}
    (hr : ∀ l, r ≠ some (.head l)) :
    s.leaveNext t x r = (s.setDev (s.dev.nextTaken t x s.dev.heap r)).goto t .out := by
  rcases r with - | (l | e)
  · rfl
  · exact absurd rfl (hr l)
  · rfl

/-- The end of `ums_complist_next_context`. -/
theorem sim_leaveNext (h : StoreSim s d F q) {r : Option Node} (hp : s.place t = .body (.ret r))
    {x : Pid} (hx : s.dev.pc t = .nextContext x) (hpc : d.pc t = .nextContext x)
    (hb : d.batches t = s.dev.batches t) (hq : q t = ListProg.pop (.context x)) :
    ∃ d' F' q', StoreSim (s.leaveNext t x r) d' F' q' := by
  obtain ⟨r', H, hH, hhead, hs⟩ := Device.step_next h.dev hpc
  obtain ⟨hr', hm⟩ := Device.reachable_run h.dev hs
  have hothers := Device.others_of_move h.dev hm
  rw [Device.changes, hpc] at hothers
  have hexec : (q t).exec (cells d.heap) = some (r', cells H) := by
    rw [hq, exec_pop_context, hH]
    rfl
  obtain ⟨rfl, hpool⟩ := h.pool_done hp hexec (x := .out) (by simp)
  rw [leaveNext_eq s t x hhead]
  have hleaves : Leaves s t ((s.setDev (s.dev.nextTaken t x s.dev.heap r)).goto t .out) := by
    refine ⟨fun u hu => ?_, fun u hu => s.dev.nextTaken_other x _ r hu,
      fun u hu => Function.update_of_ne hu _ s.place, fun _ _ _ h => h, fun u _ ht => ?_,
      fun _ _ => rfl⟩
    · show (s.dev.nextTaken t x _ r).pc u = _
      rw [s.dev.nextTaken_pc]
      exact Function.update_of_ne hu _ s.dev.pc
    · show (s.dev.nextTaken t x _ r).task u = _
      rw [s.dev.nextTaken_task]
      exact ht
  refine ⟨_, _, _, h.of_step ((s.setDev (s.dev.nextTaken t x s.dev.heap r)).goto t .out) ∅
    (.ret none) hleaves hothers (by simp) (by simp) hr' ?_
    (h.same.nextTaken x _ r _ hb) ?_ (fun u hu => ?_)
    (.keep h (by simp [hp]) rfl)⟩
  · show Pool _ _ _ (cells (s.dev.nextTaken t x s.dev.heap r).heap) _
    rw [d.nextTaken_heap, s.dev.nextTaken_heap]
    exact hpool
  · refine ⟨?_, by simp, fun _ => ?_, fun hsig => ?_, fun k hk => ?_, not_rests_goto rfl⟩
    · show ThreadAt _ _ t _ _ (Function.update s.place t _ t) ((s.dev.nextTaken t x _ r).pc t)
      rw [Function.update_self, s.dev.nextTaken_pc, Function.update_self]
      refine .out _ ?_ (Device.nextTaken_self x _ r _ hb) (fun _ hk => by cases hk)
      rw [d.nextTaken_pc, Function.update_self]
    · show (d.nextTaken t x H r).task t = (s.dev.nextTaken t x _ r).task t
      rw [d.nextTaken_task, s.dev.nextTaken_task]
      exact h.task t (by simp [hpc])
    · obtain ⟨⟨k, hk⟩, -⟩ := h.signal t hsig
      cases hx.symm.trans hk
    · exact absurd hk (h.not_waiting (by rw [hp]; rfl) k)
  · show (_ ∨ _) ∧ (_ → _ → _ = (s.dev.nextTaken t x _ r).task u)
    rw [d.nextTaken_task, s.dev.nextTaken_task]
    exact ⟨Or.inl rfl, fun _ h => h⟩

end Steps

end LinuxUms
