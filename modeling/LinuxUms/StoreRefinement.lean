import LinuxUms.StoreSteps

/-! Single loads and stores against whole list operations: every run of the device with loads and
stores is one of the device whose list operations are single steps. -/
namespace LinuxUms

open KernelList StoreProgram Handoff

section Steps

variable {s s' : StoreDevice} {d d' : Device} {F : Pid → Set (Cell Node)}
  {q : Pid → ListProg Node} {t u : Pid}

/-- A list that looks empty is empty: an insertion in progress has not happened yet, and a removal
has. -/
theorem StoreSim.linked_nil (h : StoreSim s d F q) {l : ListId}
    (he : listEmpty s.dev.heap (.head l) = true) : d.Linked (.head l) [] := by
  by_cases hF : ∃ u, (Node.head l, Field.next) ∈ F u
  · obtain ⟨u, hu⟩ := hF
    have hthread := h.thread u
    generalize F u = G at hu hthread
    generalize q u = g at hthread
    generalize s.place u = x at hthread
    generalize s.dev.pc u = c at hthread
    cases hthread with
    | out | wake | wait => cases hu
    | add G p c k hc hlist hl hhead =>
      obtain ⟨rfl, hnil⟩ := hhead l hu
      exact hnil
    | take G p c k x hc hl hhead hnil | empty G p c k hc hl hhead hnil =>
      obtain rfl := hhead l hu
      exact hnil
    | next G p x hhead => exact absurd hu (hhead l)
  · have hcell : cells s.dev.heap (.head l, .next) = cells d.heap (.head l, .next) :=
      h.pool.rest _ (not_exists.mp hF)
    obtain ⟨σ, -, -, hA⟩ := reachable_handoff h.dev
    have hd : listEmpty d.heap (.head l) = true := by
      rw [listEmpty, decide_eq_true_iff] at he ⊢
      exact hcell.symm.trans he
    have hring := hA.queue_ring l
    rw [(hA.listEmpty_head l).mp hd] at hring
    exact hring

theorem ThreadAt.of_wait {G : Set (Cell Node)} {g : ListProg Node} {x : ListPlace} {c : Pc}
    (h : ThreadAt s d t G g x c) (hx : x.waits = true) :
    d.pc t = c ∧ d.batches t = s.dev.batches t ∧ (x.awake = true → s.dev.task t = .running) ∧
      (x = .test true → s.signalled t = true) := by
  cases h with
  | wait x l _ hpc hb hrun hsig => exact ⟨hpc, hb, hrun, hsig⟩
  | _ => cases hx

theorem ListPlace.not_body_of_waits {x : ListPlace} (hx : x.waits = true) (p : ListProg Node) :
    x ≠ .body p := by
  rintro rfl
  cases hx

/-- A step in `wait_event_interruptible`, which leaves `v` as the state of the task and `ws` as the
queue. -/
theorem sim_wait (h : StoreSim s d F q) (hw : (s.place t).waits = true) {l : ListId}
    (hl : s.dev.pc t = .dqWait l) (v : TaskState) (ws : List Pid) (x : ListPlace)
    (hx : x.waits = true ∨ x = .out) (hrun : x.awake = true ∨ x = .out → v = .running)
    (hsig : x = .test true → s.signalled t = true) (hnodup : ws.Nodup)
    (hws : ∀ u, u ≠ t → (u ∈ ws ↔ u ∈ s.waiters l)) (hself : t ∈ ws → x.inQueue = true)
    (hrest : x.rests = true → v = .interruptible →
      t ∈ ws ∧ (x = .sleep → d.Linked (.head l) [])) :
    ∃ F' q', StoreSim ({ s with
      dev := s.dev.setTask t v
      waiters := Function.update s.waiters l ws }.goto t x) d F' q' := by
  obtain ⟨hpc, hb, -, -⟩ := (h.thread t).of_wait hw
  have hbody (p : ListProg Node) : x ≠ .body p := by
    rcases hx with hx | rfl
    · exact ListPlace.not_body_of_waits hx p
    · simp
  refine ⟨_, _, h.stutter _ ∅ (.ret none) ⟨fun _ _ => rfl, fun _ _ => rfl,
      fun u hu => Function.update_of_ne hu _ s.place, fun _ _ _ h => h,
      fun u hu ht => (Function.update_of_ne hu _ s.dev.task).trans ht, fun _ _ => rfl⟩
    (h.pool_idle (ListPlace.not_body_of_waits hw) hbody)
    ⟨h.same.worker, h.same.scheduler, h.same.ready, h.same.hist, h.same.fault⟩ ?_
    (fun u hu _ => Function.update_of_ne hu _ s.dev.task) ?_⟩
  · have htask : Function.update s.dev.task t v t = v := Function.update_self _ _ _
    refine ⟨?_, by simp, fun hne => absurd (hpc.trans hl) (hne l), h.signal t, fun k hk => ?_,
      fun hr k hk hi => ?_⟩
    · show ThreadAt _ d t _ _ (Function.update s.place t x t) (s.dev.pc t)
      rw [Function.update_self, hl]
      rcases hx with hx | rfl
      · exact .wait x l hx (hpc.trans hl) hb (fun ha => htask.trans (hrun (Or.inl ha))) hsig
      · exact .out _ (hpc.trans hl) hb (fun _ _ => htask.trans (hrun (Or.inr rfl)))
    · show (Function.update s.place t x t).inQueue = true ∧ s.dev.pc t = .dqWait k
      have hk' : t ∈ Function.update s.waiters l ws k := hk
      rw [Function.update_self]
      by_cases hkl : k = l
      · subst hkl
        rw [Function.update_self] at hk'
        exact ⟨hself hk', hl⟩
      · rw [Function.update_of_ne hkl] at hk'
        have hpk := (h.waiters k t hk').2
        exact absurd (Pc.dqWait.inj (hpk.symm.trans hl)) hkl
    · obtain rfl : l = k := Pc.dqWait.inj (hl.symm.trans hk)
      replace hr : (Function.update s.place t x t).rests = true := hr
      rw [Function.update_self] at hr
      show t ∈ Function.update s.waiters l ws l ∧ (Function.update s.place t x t = .sleep → _)
      rw [Function.update_self, Function.update_self]
      exact hrest hr (htask.symm.trans hi)
  · have hmem (k : ListId) (u : Pid) (hu : u ≠ t) :
        u ∈ Function.update s.waiters l ws k ↔ u ∈ s.waiters k := by
      by_cases hkl : k = l
      · subst hkl
        rw [Function.update_self]
        exact hws u hu
      · rw [Function.update_of_ne hkl]
    refine ⟨fun k => ?_, fun k u hu => (hmem k u hu).mp, fun k u hu h _ => (hmem k u hu).mpr h,
      fun k u hv => ?_⟩
    · show (Function.update s.waiters l ws k).Nodup
      by_cases hkl : k = l
      · subst hkl
        rw [Function.update_self]
        exact hnodup
      · rw [Function.update_of_ne hkl]
        exact h.nodup k
    · rw [hv.1] at hw
      cases hw

/-- The same when the task and the queue stay as they are. -/
theorem sim_look (h : StoreSim s d F q) (hw : (s.place t).waits = true) {l : ListId}
    (hl : s.dev.pc t = .dqWait l) (x : ListPlace) (hx : x.waits = true ∨ x = .out)
    (hrun : x.awake = true ∨ x = .out → s.dev.task t = .running)
    (hsig : x = .test true → s.signalled t = true)
    (hself : (s.place t).inQueue = true → x.inQueue = true)
    (hrest : x.rests = true → s.dev.task t = .interruptible →
      t ∈ s.waiters l ∧ (x = .sleep → d.Linked (.head l) [])) :
    ∃ F' q', StoreSim (s.goto t x) d F' q' := by
  have hsim := sim_wait h hw hl (s.dev.task t) (s.waiters l) x hx hrun hsig (h.nodup l)
    (fun _ _ => Iff.rfl) (fun ht => hself (h.waiters l t ht).1) hrest
  rwa [Device.setTask, Function.update_eq_self, Function.update_eq_self] at hsim

/-- The wait ends by a signal. -/
theorem sim_interrupted (h : StoreSim s d F q) (hw : s.place t = .test true) {l : ListId}
    (hl : s.dev.pc t = .dqWait l) (he : listEmpty s.dev.heap (.head l) = true) :
    ∃ d' F' q', StoreSim ({ s with
      dev := s.dev.ret t .dqcontext .erestartsys
      signalled := Function.update s.signalled t false }.goto t .out) d' F' q' := by
  have hthread := h.thread t
  rw [hw] at hthread
  obtain ⟨hpc, hb, hrun, hsig⟩ := hthread.of_wait rfl
  rw [hl] at hpc
  have htask : d.task t = .running := (h.signal t (hsig rfl)).2 ⟨l, hpc⟩
  have hde : listEmpty d.heap (.head l) = true :=
    (listEmpty_ring _ _ _ (h.linked_nil he)).mpr rfl
  have hs : d.step (.run t) = some (d.ret t .dqcontext .erestartsys) := by
    rw [Device.step, hpc, Device.advance, hde, htask]
    rfl
  obtain ⟨hr', hm⟩ := Device.reachable_run h.dev hs
  have hothers := Device.others_of_move h.dev hm
  rw [Device.changes, hpc] at hothers
  have hleaves : Leaves s t ({ s with
      dev := s.dev.ret t .dqcontext .erestartsys
      signalled := Function.update s.signalled t false }.goto t .out) :=
    ⟨fun u hu => Function.update_of_ne hu _ s.dev.pc, fun _ _ => rfl,
      fun u hu => Function.update_of_ne hu _ s.place, fun _ _ _ h => h, fun _ _ h => h,
      fun u hu => Function.update_of_ne hu _ s.signalled⟩
  refine ⟨_, _, _, h.of_step _ ∅ (.ret none) hleaves hothers (by simp) (by simp) hr'
    (h.pool_idle (by simp [hw]) (by simp))
    ⟨h.same.worker, h.same.scheduler, h.same.ready, congrArg (_ :: ·) h.same.hist, h.same.fault⟩
    ?_ (fun _ _ => ⟨Or.inl rfl, fun _ h => h⟩) (.keep h (by simp [hw]) rfl)⟩
  refine ⟨?_, by simp, fun _ => htask.trans (hrun rfl).symm, fun hs => ?_, fun k hk => ?_,
    not_rests_goto rfl⟩
  · show ThreadAt _ _ t _ _ (Function.update s.place t _ t) (Function.update s.dev.pc t _ t)
    rw [Function.update_self, Function.update_self]
    exact .out _ (Function.update_self _ _ _) hb (fun _ hk => by cases hk)
  · have hs' : Function.update s.signalled t false t = true := hs
    rw [Function.update_self] at hs'
    cases hs'
  · exact absurd hk (h.not_waiting (by rw [hw]; rfl) k)

/-- A thread that is in a queue is in the wait. -/
theorem StoreSim.pc_of_waiter (h : StoreSim s d F q) {l : ListId} (hu : u ∈ s.waiters l) :
    d.pc u = .dqWait l := by
  obtain ⟨hplace, hpc⟩ := h.waiters l u hu
  have hw : (s.place u).waits = true := by
    generalize s.place u = x at hplace
    cases x with
    | prepare | test | sleep | finish => rfl
    | _ => cases hplace
  exact ((h.thread u).of_wait hw).1.trans hpc

theorem Pc.added_ne_dqWait {c : Pc} (hc : c.adds = true) (l : ListId) : c.added ≠ .dqWait l := by
  cases c with
  | enterAdd | yieldAdd => simp [Pc.added]
  | _ => cases hc

theorem mem_wakeUpAll {l k : ListId} (h : u ∈ (s.wakeUpAll l).waiters k) : u ∈ s.waiters k := by
  replace h : u ∈ Function.update s.waiters l _ k := h
  by_cases hk : k = l
  · subst hk
    rw [Function.update_self] at h
    exact List.mem_of_mem_filter h
  · rwa [Function.update_of_ne hk] at h

theorem nodup_wakeUpAll (h : ∀ l, (s.waiters l).Nodup) (l k : ListId) :
    ((s.wakeUpAll l).waiters k).Nodup := by
  show (Function.update s.waiters l _ k).Nodup
  by_cases hk : k = l
  · subst hk
    rw [Function.update_self]
    exact (h k).filter _
  · rw [Function.update_of_ne hk]
    exact h k

/-- `wake_up_all` in `ums_completion_list_add`. -/
theorem sim_wakeUp (h : StoreSim s d F q) (hp : s.place t = .wake) :
    ∃ F' q', StoreSim (s.wakeUp t) d F' q' := by
  have hthread := h.thread t
  rw [hp] at hthread
  generalize hc : s.dev.pc t = c at hthread
  generalize F t = G at hthread
  generalize q t = g at hthread
  cases hthread with
  | wait x l hx => cases hx
  | wake c m hadds hlist hpc hb =>
  obtain ⟨l, hlistOf⟩ : ∃ l, s.dev.listOf t = some l := by
    rw [Device.listOf, hc]
    cases c with
    | enterAdd l => exact ⟨l, rfl⟩
    | yieldAdd =>
      obtain ⟨w, hw, hwl⟩ := Option.map_eq_some_iff.mp hlist
      refine ⟨m, ?_⟩
      show (s.dev.worker t).bind Worker.complist = some m
      rw [← h.same.worker, hw]
      exact hwl
    | _ => cases hadds
  have hnot (k : ListId) (hk : t ∈ s.waiters k) : False :=
    h.not_waiting (by rw [hp]; rfl) k hk
  have hdpc (k : ListId) : d.pc t ≠ .dqWait k := by
    rw [hpc]
    exact Pc.added_ne_dqWait hadds k
  rw [StoreDevice.wakeUp, hlistOf]
  have hleaves : Leaves s t (((s.wakeUpAll l).setDev ((s.wakeUpAll l).dev.setPc t
      (s.dev.pc t).added)).goto t .out) := by
    refine ⟨fun u hu => Function.update_of_ne hu _ s.dev.pc, fun _ _ => rfl,
      fun u hu => Function.update_of_ne hu _ s.place, fun _ _ _ h => h, fun u hu ht => ?_,
      fun _ _ => rfl⟩
    show (if u ∈ s.waiters l then _ else _) = _
    split
    · rfl
    · exact ht
  refine ⟨_, _, h.stutter _ ∅ (.ret none) hleaves (h.pool_idle (by simp [hp]) (by simp))
    ⟨h.same.worker, h.same.scheduler, h.same.ready, h.same.hist, h.same.fault⟩ ?_
    (fun u hu hne => ?_) ?_⟩
  · refine ⟨?_, by simp, fun _ => ?_, fun hsig => ?_, fun k hk => ?_, not_rests_goto rfl⟩
    · show ThreadAt _ d t _ _ (Function.update s.place t _ t) (Function.update s.dev.pc t _ t)
      rw [Function.update_self, Function.update_self, hc]
      exact .out _ hpc hb (fun k hk => absurd hk (Pc.added_ne_dqWait hadds k))
    · show d.task t = if t ∈ s.waiters l then _ else _
      rw [if_neg (hnot l)]
      exact h.task t hdpc
    · obtain ⟨⟨k, hk⟩, -⟩ := h.signal t hsig
      rw [hc] at hk
      rw [hk] at hadds
      cases hadds
    · exact (hnot k (mem_wakeUpAll hk)).elim
  · show (if u ∈ s.waiters l then _ else _) = _
    rw [if_neg]
    intro hul
    exact hne l (h.pc_of_waiter hul)
  · refine ⟨nodup_wakeUpAll h.nodup l, fun _ _ _ hu => mem_wakeUpAll hu, fun k u _ hu hi => ?_,
      fun k u hk _ hu => ?_⟩
    · have hul : u ∉ s.waiters l := by
        intro hul
        cases (if_pos hul).symm.trans hi
      have hkl : k ≠ l := by
        rintro rfl
        exact hul hu
      show u ∈ Function.update s.waiters l _ k
      rw [Function.update_of_ne hkl]
      exact hu
    · obtain rfl : l = k := Option.some.inj (hlistOf.symm.trans hk.2)
      exact if_pos hu

theorem ThreadAt.out_of_pc {G : Set (Cell Node)} {g : ListProg Node} {x : ListPlace} {c : Pc}
    (h : ThreadAt s d t G g x c) (hc : c.onList = false) : x = .out := by
  cases h with
  | out => rfl
  | add G p c l hadds | wake c l hadds =>
    cases c with
    | enterAdd | yieldAdd => cases hc
    | _ => cases hadds
  | take G p c l x hdq | empty G p c l hdq => rcases hdq with rfl | rfl <;> cases hc
  | next | wait => cases hc

/-- Both devices do the same to thread `t`, which is outside the code of the lists. -/
theorem StoreSim.alike (h : StoreSim s d F q) {s₁ d₁ : Device} (hout : s.place t = .out)
    (hc : ∀ l, s.dev.pc t ≠ .dqWait l) (ha : Device.Alike s.dev d t s₁ d₁)
    (hd : Device.Others none d t d₁) (hr : DeviceReachable d₁)
    (hpool : Pool F (fun u => (s.place u).prog) q (cells s₁.heap) (cells d₁.heap))
    (hnot : ∀ l, s₁.pc t ≠ .dqWait l) : ∃ F' q', StoreSim (s.setDev s₁) d₁ F' q' := by
  obtain ⟨hF, hpc, hb, -⟩ := h.of_out hout
  obtain ⟨-, hq⟩ := (h.thread t).idle (by simp [hout])
  obtain ⟨c, hs₁, hd₁⟩ := ha.pc
  have hother (u : Pid) (hu : u ≠ t) : s₁.pc u = s.dev.pc u := by
    rw [hs₁, Function.update_of_ne hu]
  have htask : d.task t = s.dev.task t := h.task t (by rw [hpc]; exact hc)
  have hboth (u : Pid) (hu : d.task u = s.dev.task u) : d₁.task u = s₁.task u := by
    rcases ha.task with ⟨hst, hdt⟩ | ⟨w, v, -, hst, hdt⟩
    · rw [hst, hdt, hu]
    · rw [hst, hdt]
      by_cases huw : u = w
      · rw [huw, Function.update_self, Function.update_self]
      · rw [Function.update_of_ne huw, Function.update_of_ne huw, hu]
  have hwoken {f f' : Pid → TaskState} {w : Pid} {v : TaskState} (hv : w = t ∨ v = .running)
      (hf : f' = Function.update f w v) (u : Pid) (hu : u ≠ t) : f' u = f u ∨ f' u = .running := by
    rw [hf]
    by_cases huw : u = w
    · rw [huw, Function.update_self]
      rcases hv with hv | hv
      · exact absurd (huw.trans hv) hu
      · exact Or.inr hv
    · exact Or.inl (Function.update_of_ne huw _ _)
  have hrun (u : Pid) (hu : u ≠ t) : (s₁.task u = s.dev.task u ∨ s₁.task u = .running) ∧
      (d₁.task u = d.task u ∨ d₁.task u = .running) := by
    rcases ha.task with ⟨hst, hdt⟩ | ⟨w, v, hv, hst, hdt⟩
    · exact ⟨Or.inl (by rw [hst]), Or.inl (by rw [hdt])⟩
    · exact ⟨hwoken hv hst u hu, hwoken hv hdt u hu⟩
  refine ⟨_, _, h.of_step (s.setDev s₁) ∅ (.ret none) ⟨hother, fun u _ => by
      rw [StoreDevice.setDev, ha.batches.1], fun _ _ => rfl, fun _ _ _ h => h, fun u hu ht => ?_,
      fun _ _ => rfl⟩ hd (by simp) (by simp) hr ?_ ha.same ?_
    (fun u hu => ⟨(hrun u hu).2, fun _ => hboth u⟩)
    (.keep h (by simp [hout]) rfl)⟩
  · rcases (hrun u hu).1 with he | he
    · exact he.trans ht
    · exact he
  · rw [← hF, ← hq, Function.update_eq_self, Function.update_eq_self]
    exact hpool
  · refine ⟨?_, by simp, fun _ => hboth t htask, fun hsig => ?_, fun k hk => ?_,
      fun hr k hk => absurd hk (hnot k)⟩
    · show ThreadAt _ d₁ t _ _ (s.place t) (s₁.pc t)
      rw [hout]
      refine .out _ ?_ ?_ (fun l hl => absurd hl (hnot l))
      · rw [hs₁, hd₁, Function.update_self, Function.update_self]
      · show d₁.batches t = s₁.batches t
        rw [ha.batches.1, ha.batches.2, hb]
    · obtain ⟨⟨k, hk⟩, -⟩ := h.signal t hsig
      exact absurd hk (hc k)
    · exact absurd hk (h.not_waiting (by rw [hout]; rfl) k)

theorem Device.Move.not_dqWait {c : Pc} (hm : d.Move t c d') (hc : c.onList = false) (l : ListId) :
    d'.pc t ≠ .dqWait l := by
  have hgo {x : Pc} (hx : x ≠ .dqWait l) (hpc : d'.pc = Function.update d.pc t x) :
      d'.pc t ≠ .dqWait l := by
    rw [hpc, Function.update_self]
    exact hx
  cases hm with
  | enterAdd | yieldAdd | dqSleep | dqTake | dqInterrupted | dqWoken | next | close => cases hc
  | switching k op ops =>
    have hb := Device.beside_switchOp d (k.contexts t).1 (k.contexts t).2 op
    refine hgo ?_ (congrArg (Function.update · t _) hb.pc)
    split
    · cases k <;> simp [Switching.after]
    · simp
  | _ => exact hgo (by simp) rfl

theorem Device.changes_of_not_onList (h : (d.pc t).onList = false) : d.changes t = none := by
  unfold Device.changes
  generalize d.pc t = c at h
  cases c with
  | enterAdd | yieldAdd | dqTest => cases h
  | _ => rfl

/-- A step outside the code of the lists. -/
theorem sim_advance (h : StoreSim s d F q) (hout : s.place t = .out)
    (hc : (s.dev.pc t).onList = false) {s₁ : Device}
    (hs : s.dev.advance t (s.dev.pc t) = some s₁) :
    ∃ d' F' q', StoreSim (s.setDev s₁) d' F' q' := by
  obtain ⟨-, hpc, -, -⟩ := h.of_out hout
  have hnot (l : ListId) : s.dev.pc t ≠ .dqWait l := by
    intro hl
    rw [hl] at hc
    cases hc
  have htask : d.task t = s.dev.task t := h.task t (by rw [hpc]; exact hnot)
  obtain ⟨d₁, hd₁, ha, hsheap, hdheap⟩ := Device.advance_alike h.same hpc htask hc hs
  have hstep : d.step (.run t) = some d₁ := by
    rw [Device.step, hpc]
    exact hd₁
  obtain ⟨hr, hm⟩ := Device.reachable_run h.dev hstep
  have hothers := Device.others_of_move h.dev hm
  rw [Device.changes_of_not_onList (by rw [hpc]; exact hc)] at hothers
  refine ⟨d₁, h.alike hout hnot ha hothers hr ?_ (fun l => ?_)⟩
  · rw [hsheap, hdheap]
    exact h.pool
  · obtain ⟨c, hsc, hdc⟩ := ha.pc
    have hself := hm.not_dqWait (by rw [hpc]; exact hc) l
    rw [hdc, Function.update_self] at hself
    rw [hsc, Function.update_self]
    exact hself

/-- The node of a thread that is no worker is nobody's. -/
theorem not_owns_of_no_worker (hr : DeviceReachable d) {lock : ListId → Option Pid}
    (ht : d.worker t = none) (hpc : d.pc t = .user) : ¬ Owns lock d u (.context t) := by
  intro h
  obtain ⟨σ, hI, -, hA⟩ := reachable_handoff hr
  have hout : (σ.place t).unlisted = true := by
    rw [(hA.live t).mp ht]
    rfl
  rcases h with ⟨l, ms, hl, hms, hn⟩ | ⟨c, ms, hc, hms, hn⟩ | ⟨hadds, hn⟩
  · exact not_mem_linked hI t hout _ _ (Device.linked_head hA hms) hn
  · have hhanded : σ.place c = .handed u := hI.handed_of_handle u c (by rw [hA.batches]; exact hc)
    rw [hms.rest_eq hA hhanded] at hn
    exact not_mem_linked hI t hout _ _ (linked_of_handed c u hhanded) hn
  · rw [← Node.context.inj hn, hpc] at hadds
    cases hadds

theorem cells_update_eqOn {h : Heap Node} {n : Node} {v : Links Node} {G : Set (Cell Node)}
    (hG : ∀ c ∈ G, c.1 ≠ n) : Set.EqOn (cells h) (cells (Function.update h n v)) G := by
  rintro ⟨a, f⟩ hc
  have ha : Function.update h n v a = h a := Function.update_of_ne (hG _ hc) _ _
  cases f with
  | next => exact congrArg Links.next ha.symm
  | prev => exact congrArg Links.prev ha.symm

theorem pc_of_call {a : DeviceAct} {s₁ : Device} (hs : d.call a = some s₁) (l : ListId) :
    s₁.pc a.caller ≠ .dqWait l := by
  have hgo {x : Pc} (hx : x ≠ .dqWait l) (hpc : s₁.pc = Function.update d.pc a.caller x) :
      s₁.pc a.caller ≠ .dqWait l := by
    rw [hpc, Function.update_self]
    exact hx
  cases a with
  | run | signal => cases hs
  | _ =>
    rw [Device.call] at hs
    split at hs <;> cases hs <;> exact hgo (by simp) rfl

/-- The beginning of a call. -/
theorem sim_call (h : StoreSim s d F q) {a : DeviceAct} (hprot : Protocol s.dev a)
    (hpc : s.dev.pc a.caller = .user) {s₁ : Device} (hs : s.dev.call a = some s₁) :
    ∃ d' F' q', StoreSim (s.setDev s₁) d' F' q' := by
  have hout : s.place a.caller = .out := (h.thread a.caller).out_of_pc (by rw [hpc]; rfl)
  obtain ⟨-, hdpc, hb, -⟩ := h.of_out hout
  rw [hpc] at hdpc
  obtain ⟨d₁, hd₁, ha, hheap⟩ := Device.call_alike h.same hs
  have hstep : d.step a = some d₁ := by
    cases a with
    | run | signal => cases hs
    | _ => exact (if_pos hdpc).trans hd₁
  have hok : Protocol d a ∧ Calm d a := by
    cases a with
    | run | signal => cases hs
    | nextContext t c =>
      refine ⟨?_, trivial⟩
      show IsHandle c (d.batches (DeviceAct.nextContext t c).caller)
      rw [hb]
      exact hprot
    | exec t w =>
      refine ⟨?_, trivial⟩
      rw [Protocol, h.same.ready]
      exact hprot
    | _ => exact ⟨trivial, trivial⟩
  refine ⟨d₁, h.alike hout (by simp [hpc]) ha (Device.others_of_call h.dev hd₁)
    (.tail a h.dev hok hstep) ?_ (pc_of_call hs)⟩
  rcases hheap with ⟨hsheap, hdheap⟩ | ⟨v, hw, hsheap, hdheap⟩
  · rw [hsheap, hdheap]
    exact h.pool
  · rw [hsheap, hdheap]
    have hfree (u : Pid) (c : Cell Node) (hc : c ∈ F u) : c.1 ≠ .context a.caller := by
      intro hn
      have ho := h.owned u c hc
      rw [hn] at ho
      exact not_owns_of_no_worker h.dev (by rw [h.same.worker]; exact hw) hdpc ho
    refine h.pool.frame (fun u => cells_update_eqOn (hfree u))
      (fun u => cells_update_eqOn (hfree u)) ?_
    rintro ⟨n, f⟩ hn
    by_cases hnc : n = .context a.caller
    · subst hnc
      cases f <;> simp [cells]
    · have hold := h.pool.rest (n, f) hn
      cases f <;> simpa [cells, hnc] using hold

/-- Where a thread is does not depend on its task, unless the task has to be awake. -/
theorem ThreadAt.awakened {G : Set (Cell Node)} {g : ListProg Node} {x : ListPlace} {c : Pc}
    (h : ThreadAt s d t G g x c) (v : Pid → TaskState) (hl : s'.lock = s.lock)
    (hb : s'.dev.batches t = s.dev.batches t) (ht : s'.dev.task t = .running)
    (hsig : s.signalled t = true → s'.signalled t = true) :
    ThreadAt s' { d with task := v } t G g x c := by
  have hl' {l : ListId} (h : s.lock l = some t) : s'.lock l = some t := by
    rw [hl]
    exact h
  cases h with
  | out c hpc hb' hrun => exact .out c hpc (hb'.trans hb.symm) (fun _ _ => ht)
  | add G p c l hc hlist hlock hhead hpc hb' =>
    exact .add G p c l hc hlist (hl' hlock) hhead hpc (hb'.trans hb.symm)
  | take G p c l x hc hlock hhead hnil hpc hb' =>
    refine .take G p c l x hc (hl' hlock) hhead hnil hpc ?_
    rw [hb]
    exact hb'
  | empty G p c l hc hlock hhead hnil hpc hb' hrun =>
    exact .empty G p c l hc (hl' hlock) hhead hnil hpc (hb'.trans hb.symm) ht
  | next G p x hhead hpc hb' => exact .next G p x hhead hpc (hb'.trans hb.symm)
  | wake c l hc hlist hpc hb' => exact .wake c l hc hlist hpc (hb'.trans hb.symm)
  | wait x l hx hpc hb' hrun hs =>
    exact .wait x l hx hpc (hb'.trans hb.symm) (fun _ => ht) (fun hx => hsig (hs hx))

/-- The thread that a signal comes to, in both devices. -/
theorem StoreSim.awaken (h : StoreSim s d F q) (sig : Pid → Bool) (hr : DeviceReachable d')
    (hd : d' = d ∨ d' = d.setTask t .running) (hrun : d'.task t = .running)
    (hsig : ∀ u, u ≠ t → sig u = s.signalled u) (hmono : s.signalled t = true → sig t = true)
    (hpc : sig t = true → ∃ l, s.dev.pc t = .dqWait l) (hwake : s.place t ≠ .wake) :
    ∃ F' q', StoreSim { s with dev := s.dev.setTask t .running, signalled := sig } d' F' q' := by
  obtain ⟨v, rfl, hv⟩ : ∃ v, d' = { d with task := v } ∧ ∀ u, u ≠ t → v u = d.task u := by
    rcases hd with rfl | rfl
    · exact ⟨_, rfl, fun _ _ => rfl⟩
    · exact ⟨_, rfl, fun u hu => Function.update_of_ne hu _ _⟩
  have htask : Function.update s.dev.task t .running t = .running := Function.update_self _ _ _
  have hothers : Device.Others none d t { d with task := v } :=
    ⟨⟨fun _ _ => rfl, fun _ _ => rfl, fun _ _ => rfl, fun _ _ => rfl, fun _ _ => rfl,
      fun _ _ => ⟨rfl, rfl⟩⟩, fun _ _ _ h => h, fun _ _ _ _ _ h => h⟩
  refine ⟨_, _, h.of_step _ (F t) (q t) ⟨fun _ _ => rfl, fun _ _ => rfl, fun _ _ => rfl,
      fun _ _ _ h => h, fun u hu ht => (Function.update_of_ne hu _ s.dev.task).trans ht, hsig⟩
    hothers (by simp) (by simp) hr ?_
    ⟨h.same.worker, h.same.scheduler, h.same.ready, h.same.hist, h.same.fault⟩ ?_ ?_
    (.keep h hwake rfl)⟩
  · rw [Function.update_eq_self, Function.update_eq_self]
    exact h.pool
  · exact ⟨(h.thread t).awakened v rfl rfl htask hmono, h.owned t, fun _ => hrun.trans htask.symm,
      fun hs => ⟨hpc hs, fun _ => hrun⟩, fun l hl => h.waiters l t hl,
      fun _ _ _ hi => by cases htask.symm.trans hi⟩
  · intro u hu
    have hsu : Function.update s.dev.task t .running u = s.dev.task u :=
      Function.update_of_ne hu _ _
    exact ⟨Or.inl (hv u hu), fun _ ht => (hv u hu).trans (ht.trans hsu.symm)⟩

theorem ThreadAt.adds_of_wake {G : Set (Cell Node)} {g : ListProg Node} {c : Pc}
    (h : ThreadAt s d t G g .wake c) : c.adds = true := by
  cases h with
  | wake _ _ hadds => exact hadds
  | wait _ _ hx => cases hx

theorem ThreadAt.pc_of_dqWait {G : Set (Cell Node)} {g : ListProg Node} {x : ListPlace}
    {l : ListId} (h : ThreadAt s d t G g x (.dqWait l)) :
    d.pc t = .dqWait l ∨ d.pc t = .dqReturn := by
  cases h with
  | out _ hpc | wait _ _ _ hpc => exact Or.inl hpc
  | add _ _ _ _ hadds | wake _ _ hadds => cases hadds
  | take _ _ _ _ _ _ _ _ _ hpc => exact Or.inr hpc
  | empty _ _ _ _ _ _ _ _ hpc => exact Or.inl hpc

/-- A signal to a thread that waits. -/
theorem sim_signal (h : StoreSim s d F q) (hcalm : Calm s.dev (.signal t))
    (hs : s.signal t = some s') : ∃ d' F' q', StoreSim s' d' F' q' := by
  have hd (hw : (d.pc t).waiting = true) (hi : d.task t = .interruptible) :
      DeviceReachable (d.setTask t .running) := by
    refine .tail (.signal t) h.dev ⟨trivial, hw⟩ ?_
    rw [Device.step, if_pos hi]
  have hself : (d.setTask t .running).task t = .running := Function.update_self _ _ _
  rw [Calm] at hcalm
  have hwake : s.place t ≠ .wake := by
    intro hw
    have hthread := h.thread t
    rw [hw] at hthread
    have hadds := hthread.adds_of_wake
    generalize s.dev.pc t = c at hcalm hadds
    cases c with
    | enterAdd | yieldAdd => cases hcalm
    | _ => cases hadds
  rw [StoreDevice.signal] at hs
  cases hc : s.dev.pc t with
  | dqWait l =>
    rw [hc] at hs
    obtain rfl := Option.some.inj hs
    have hsig (u : Pid) (hu : u ≠ t) : Function.update s.signalled t true u = s.signalled u :=
      Function.update_of_ne hu _ _
    have hon : Function.update s.signalled t true t = true := Function.update_self _ _ _
    -- the wait of `d` is over already, or it has been woken, or it is woken now
    cases hi : d.task t with
    | running =>
      exact ⟨d, h.awaken _ h.dev (Or.inl rfl) hi hsig (fun _ => hon) (fun _ => ⟨l, hc⟩)
        hwake⟩
    | interruptible =>
      have hdpc : d.pc t = .dqWait l := by
        have hthread := h.thread t
        rw [hc] at hthread
        refine hthread.pc_of_dqWait.resolve_right (fun hret => ?_)
        rw [Device.awake_of_reachable h.dev t (by rw [hret]; rfl)] at hi
        cases hi
      exact ⟨_, h.awaken _ (hd (by rw [hdpc]; rfl) hi) (Or.inr rfl) hself hsig (fun _ => hon)
        (fun _ => ⟨l, hc⟩) hwake⟩
  | evWait =>
    have hout : s.place t = .out := (h.thread t).out_of_pc (by rw [hc]; rfl)
    obtain ⟨-, hpc, -, -⟩ := h.of_out hout
    rw [hc] at hs hpc
    obtain ⟨s₁, hs₁, rfl⟩ := Option.map_eq_some_iff.mp hs
    obtain ⟨hi, rfl⟩ := Device.step_signal hs₁
    rw [← h.task t (by simp [hpc])] at hi
    refine ⟨_, h.awaken s.signalled (hd (by rw [hpc]; rfl) hi) (Or.inr rfl) hself (fun _ _ => rfl)
      (fun hs => hs) (fun hs => (h.signal t hs).1) hwake⟩
  | _ =>
    rw [hc] at hcalm
    cases hcalm

/-- No thread is at `yieldAdd` without a list. -/
theorem StoreSim.changes_some (h : StoreSim s d F q) (hpc : d.pc t = s.dev.pc t)
    (hadds : (s.dev.pc t).adds = true) : ∃ l, s.dev.changes t = some l := by
  cases hl : s.dev.changes t with
  | some l => exact ⟨l, rfl⟩
  | none =>
    rw [← h.changes_eq hpc] at hl
    have hs : d.step (.run t) = some d.crash := by
      unfold Device.changes at hl
      rw [Device.step]
      rw [← hpc] at hadds
      generalize d.pc t = c at hl hadds
      cases c with
      | enterAdd l => cases hl
      | yieldAdd =>
        rw [Device.advance]
        split
        · rename_i x l hw
          rw [hw] at hl
          cases hl
        · rfl
      | _ => cases hadds
    exact Device.crash_fault (Device.fault_of_reachable (Device.reachable_run h.dev hs).1)

theorem enter_of_adds (hadds : (s.dev.pc t).adds = true) {l : ListId}
    (hl : s.dev.changes t = some l) : s.enter t (s.dev.pc t) =
      s.spinLock t l (umsCompletionListAddProg l t complistAddTail) := by
  unfold Device.changes at hl
  generalize s.dev.pc t = c at hl hadds
  cases c with
  | enterAdd k =>
    obtain rfl := Option.some.inj hl
    rfl
  | yieldAdd =>
    obtain ⟨⟨x, k⟩, hw, hk⟩ := Option.bind_eq_some_iff.mp hl
    obtain rfl : k = some l := hk
    rw [StoreDevice.enter, hw]
  | _ => cases hadds

theorem enter_of_not_onList {c : Pc} (hc : c.onList = false) :
    s.enter t c = (s.dev.advance t c).map s.setDev := by
  cases c with
  | enterAdd | yieldAdd | dqTest | dqWait | nextContext => cases hc
  | _ => rfl

theorem leave_of_adds (hadds : (s.dev.pc t).adds = true) {l : ListId}
    (hl : s.dev.changes t = some l) (r : Option Node) :
    s.leave t r (s.dev.pc t) = s.leaveAdd t l := by
  unfold Device.changes at hl
  generalize s.dev.pc t = c at hl hadds
  cases c with
  | enterAdd k =>
    obtain rfl := Option.some.inj hl
    rfl
  | yieldAdd =>
    obtain ⟨⟨x, k⟩, hw, hk⟩ := Option.bind_eq_some_iff.mp hl
    obtain rfl : k = some l := hk
    rw [StoreDevice.leave, hw]
  | _ => cases hadds

theorem spinLock_cases {l : ListId} {p : ListProg Node} (hs : s.spinLock t l p = some s') :
    s.lock l = none ∧
      s' = { s with lock := Function.update s.lock l (some t) }.goto t (.body p) := by
  rw [StoreDevice.spinLock] at hs
  split at hs
  · rename_i hfree
    exact ⟨hfree, (Option.some.inj hs).symm⟩
  · cases hs

theorem sim_enter (h : StoreSim s d F q) (hout : s.place t = .out)
    (hs : s.enter t (s.dev.pc t) = some s') : ∃ d' F' q', StoreSim s' d' F' q' := by
  obtain ⟨-, hpc, -, -⟩ := h.of_out hout
  by_cases hadds : (s.dev.pc t).adds = true
  · obtain ⟨l, hl⟩ := h.changes_some hpc hadds
    rw [enter_of_adds hadds hl] at hs
    obtain ⟨hfree, rfl⟩ := spinLock_cases hs
    exact ⟨d, sim_lockAdd h hout hadds hl hfree⟩
  · cases hc : s.dev.pc t with
    | enterAdd | yieldAdd =>
      rw [hc] at hadds
      exact absurd rfl hadds
    | dqTest l =>
      rw [hc] at hs
      obtain ⟨hfree, rfl⟩ := spinLock_cases hs
      exact sim_lockDequeue h hout (Or.inl hc) hfree
    | dqWait l =>
      rw [hc] at hs
      obtain ⟨hfree, rfl⟩ := spinLock_cases hs
      exact sim_lockDequeue h hout (Or.inr hc) hfree
    | nextContext x =>
      rw [hc] at hs
      obtain rfl := Option.some.inj hs
      exact ⟨d, sim_enterNext h hout hc⟩
    | _ =>
      rw [hc, enter_of_not_onList rfl] at hs
      obtain ⟨s₁, hs₁, rfl⟩ := Option.map_eq_some_iff.mp hs
      exact sim_advance h hout (by rw [hc]; rfl) (by rw [hc]; exact hs₁)

theorem sim_leave (h : StoreSim s d F q) {r : Option Node} (hp : s.place t = .body (.ret r)) :
    ∃ d' F' q', StoreSim (s.leave t r (s.dev.pc t)) d' F' q' := by
  have hthread := h.thread t
  rw [hp] at hthread
  generalize hc : s.dev.pc t = c at hthread
  generalize hq : q t = g at hthread
  generalize F t = G at hthread
  cases hthread with
  | wait x l hx => cases hx
  | add G p c l hadds hlist hl hhead hpc hb =>
    rw [← hc] at hadds hpc
    have hsl : s.dev.changes t = some l := (h.changes_eq hpc).symm.trans hlist
    rw [← hc, leave_of_adds hadds hsl]
    exact sim_leaveAdd h hp hadds hlist hl hpc hb hq
  | take G p c l x hdq hl hhead hnil hpc hb =>
    have hsim := sim_leaveTaken h hp hl hpc hb hq
    rcases hdq with rfl | rfl <;> exact ⟨d, hsim⟩
  | empty G p c l hdq hl hhead hnil hpc hb hrun =>
    have hsim := sim_leaveEmpty h hp (hc ▸ hdq) hl hnil (hpc.trans hc.symm) hb hrun hq
    rcases hdq with rfl | rfl <;> exact hsim
  | next G p x hhead hpc hb => exact sim_leaveNext h hp hc hpc hb hq

theorem sim_body (h : StoreSim s d F q) {p : ListProg Node} (hp : s.place t = .body p) :
    ∃ d' F' q', StoreSim (s.access t p) d' F' q' := by
  unfold StoreDevice.access
  split
  · rename_i p' m hm
    exact ⟨d, F, q, sim_access h hp hm⟩
  · rename_i hm
    cases p with
    | ret r => exact sim_leave h hp
    | load | store => cases hm
    | fault =>
      have hsync := h.pool.sync t
      rw [hp] at hsync
      exact hsync.not_fault.elim

theorem sim_waits (h : StoreSim s d F q) (hw : (s.place t).waits = true) {l : ListId}
    (hl : s.dev.pc t = .dqWait l) (hs : s.wait t l (s.place t) = some s') :
    ∃ d' F' q', StoreSim s' d' F' q' := by
  obtain ⟨-, -, hrun, hsig⟩ := (h.thread t).of_wait hw
  have hlook := sim_look h hw hl
  have hwait := sim_wait h hw hl
  have herase (u : Pid) (hu : u ≠ t) : u ∈ (s.waiters l).erase t ↔ u ∈ s.waiters l :=
    List.mem_erase_of_ne hu
  cases hx : s.place t with
  | out | body | wake =>
    rw [hx] at hw
    cases hw
  | first =>
    rw [hx] at hs hrun hlook
    obtain rfl := Option.some.inj hs
    refine ⟨d, hlook _ ?_ (fun _ => hrun rfl) ?_ (fun hq => by cases hq) (fun hr => ?_)⟩
    · split
      · exact Or.inl rfl
      · exact Or.inr rfl
    · split <;> simp
    · split at hr <;> cases hr
  | prepare =>
    rw [hx, StoreDevice.wait] at hs
    rw [hx] at hrun
    split at hs
    · rename_i hon
      obtain rfl := Option.some.inj hs
      have hsim := hwait (s.dev.task t) ((s.waiters l).erase t) (.test true) (Or.inl rfl)
        (fun _ => hrun rfl) (fun _ => hon) ((h.nodup l).erase t) herase
        (fun ht => absurd ht (h.nodup l).not_mem_erase) (fun hr => by cases hr)
      rw [Device.setTask, Function.update_eq_self] at hsim
      exact ⟨d, hsim⟩
    · obtain rfl := Option.some.inj hs
      refine ⟨d, hwait .interruptible _ (.test false) (Or.inl rfl) (by simp [ListPlace.awake])
        (by simp) ?_ (fun u hu => ?_) (fun _ => rfl) (fun _ _ => ⟨?_, by simp⟩)⟩
      · split
        · exact h.nodup l
        · rename_i hnot
          exact List.nodup_cons.mpr ⟨hnot, h.nodup l⟩
      · split
        · rfl
        · rw [List.mem_cons, or_iff_right hu]
      · split
        · assumption
        · exact List.mem_cons_self
  | test interrupted =>
    rw [hx, StoreDevice.wait] at hs
    split at hs
    · rename_i he
      split at hs
      · rename_i hi
        obtain rfl := Option.some.inj hs
        subst hi
        exact sim_interrupted h hx hl he
      · obtain rfl := Option.some.inj hs
        rename_i hi
        have hq := h.queued t l (by rw [hx, Bool.eq_false_of_not_eq_true hi]; rfl) hl
        exact ⟨d, hlook .sleep (Or.inl rfl) (by simp [ListPlace.awake]) (by simp) (fun _ => rfl)
          (fun _ hi => ⟨hq hi, fun _ => h.linked_nil he⟩)⟩
    · obtain rfl := Option.some.inj hs
      exact ⟨d, hlook .finish (Or.inl rfl) (by simp [ListPlace.awake]) (by simp) (fun _ => rfl)
        (fun hr => by cases hr)⟩
  | sleep =>
    rw [hx, StoreDevice.wait] at hs
    split at hs
    · rename_i ht
      obtain rfl := Option.some.inj hs
      exact ⟨d, hlook .prepare (Or.inl rfl) (fun _ => ht) (by simp) (fun _ => rfl)
        (fun hr => by cases hr)⟩
    · cases hs
  | finish =>
    rw [hx] at hs
    obtain rfl := Option.some.inj hs
    exact ⟨d, hwait .running ((s.waiters l).erase t) .out (Or.inr rfl) (fun _ => rfl) (by simp)
      ((h.nodup l).erase t) herase (fun ht => absurd ht (h.nodup l).not_mem_erase)
      (fun hr => by cases hr)⟩

theorem run_of_waits (hw : (s.place t).waits = true) (hs : s.run t = some s') :
    ∃ l, s.dev.pc t = .dqWait l ∧ s.wait t l (s.place t) = some s' := by
  unfold StoreDevice.run at hs
  generalize s.place t = x at hw hs ⊢
  cases x with
  | out | body | wake => cases hw
  | _ =>
    cases hc : s.dev.pc t with
    | dqWait l =>
      rw [hc] at hs
      exact ⟨l, rfl, hs⟩
    | _ =>
      rw [hc] at hs
      cases hs

theorem sim_run (h : StoreSim s d F q) (hs : s.run t = some s') :
    ∃ d' F' q', StoreSim s' d' F' q' := by
  have hwaits (hw : (s.place t).waits = true) : ∃ d' F' q', StoreSim s' d' F' q' := by
    obtain ⟨l, hl, hs⟩ := run_of_waits hw hs
    exact sim_waits h hw hl hs
  unfold StoreDevice.run at hs
  cases hx : s.place t with
  | out =>
    rw [hx] at hs
    exact sim_enter h hx hs
  | body p =>
    rw [hx] at hs
    obtain rfl := Option.some.inj hs
    exact sim_body h hx
  | wake =>
    rw [hx] at hs
    obtain rfl := Option.some.inj hs
    exact ⟨d, sim_wakeUp h hx⟩
  | first | prepare | test | sleep | finish =>
    rw [hx] at hwaits
    exact hwaits rfl

theorem sim_step (h : StoreSim s d F q) {a : DeviceAct} (hprot : Protocol s.dev a)
    (hcalm : Calm s.dev a) (hs : s.step a = some s') : ∃ d' F' q', StoreSim s' d' F' q' := by
  cases a with
  | run t => exact sim_run h hs
  | signal t => exact sim_signal h hcalm hs
  | _ =>
    obtain ⟨s₁, hs₁, rfl⟩ := Option.map_eq_some_iff.mp hs
    obtain ⟨hpc, hcall⟩ := Device.step_call (by simp) hs₁
    exact sim_call h hprot hpc hcall

end Steps

theorem sim_init : StoreSim .init .init (fun _ => ∅) (fun _ => .ret none) where
  dev := .refl
  pool := ⟨fun _ => sync_ret none _ _, fun _ _ _ => Set.empty_disjoint _, fun _ _ => rfl⟩
  same := ⟨rfl, rfl, rfl, rfl, rfl⟩
  owned _ _ h := h.elim
  thread _ := .out _ rfl rfl (fun _ h => by cases h)
  task _ _ := rfl
  signal _ h := by cases h
  waiters _ _ h := by cases h
  nodup _ := List.nodup_nil
  queued _ _ h := by cases h
  asleep _ _ h := by cases h

theorem storeSim_of_reachable {s : StoreDevice} (hr : StoreReachable s) :
    ∃ d F q, StoreSim s d F q := by
  apply hr.invariant (fun s => ∃ d F q, StoreSim s d F q) ⟨_, _, _, sim_init⟩
  rintro s a s' ⟨d, F, q, h⟩ ⟨hprot, hcalm⟩ hs
  exact sim_step h hprot hcalm hs

end LinuxUms
