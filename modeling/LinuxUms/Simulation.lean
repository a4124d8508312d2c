import LinuxUms.Device

/-! The device simulates the hand-over model: every step of a run that follows the protocol
and has no stray signal is one step of a hand-over, or none. -/
namespace LinuxUms

open KernelList

/-- A thread that has called `schedule()` is suspended while its task is interruptible. -/
def Call.phase (task : TaskState) : Call Pid → Phase Pid
  | .enterWorker | .yield => if task = .interruptible then .parked else .woken
  | .exec w => if task = .interruptible then .execWait w else .resumed w
  | _ => .active

/-- The part in a hand-over of a thread at the given place with the given task state. -/
def Pc.phase (task : TaskState) : Pc → Phase Pid
  | .enterAttach _ | .switching (.enter _) _ | .enterAdd _ => .entering
  | .switching (.exec w) _ => .execPre w
  | .yieldPost p _ | .exitPost p => .yielding p
  | .switching (.yield p) _ | .switching (.exit p) _ => .posted p
  | .yieldAdd | .destroy => .leaving
  | .schedule c | .blocked c => c.phase task
  | _ => .active

/-- A scheduler that is registered and has not queued its startup event. -/
def Pc.starting : Pc → Bool
  | .schedAttach _ | .startup => true
  | _ => false

def Device.started (s : Device) (p : Pid) : Bool :=
  (s.scheduler p).isSome && !(s.pc p).starting

/-- The rings in the heap: a queue for each completion list, and what is left of the batch
behind each context that has been handed out. -/
def linked (σ : Handoff Pid ListId Event) : Node → Option (List Node)
  | .head l => some ((σ.queue l).map .context)
  | .context c =>
    if (σ.place c).isHanded then some ((σ.rest c).map .context) else none

/-- What a thread relies on at each place of a call. -/
def PcOk (s : Device) (t : Pid) : Pc → Prop
  | .switching (.enter l) ops => ops <:+ prepareSuspendContext ∧ ops ≠ [] ∧
      ∃ w, s.worker t = some w ∧ w.complist = some l ∧ (ops.length ≤ 1 → w.context.state = .idle)
  | .enterAdd l => s.task t = .interruptible ∧
      ∃ w, s.worker t = some w ∧ w.complist = some l ∧ w.context.state = .idle
  | .switching (.exec w) ops => ops <:+ prepareSwitchContext ∧ ops ≠ [] ∧
      (s.scheduler t).isSome ∧
      (ops.length ≤ 5 → ∃ x, s.worker w = some x ∧ x.context.parent = .context t) ∧
      (ops.length ≤ 2 → s.task t = .interruptible)
  | .switching (.yield _) ops => ops <:+ prepareSwitchContext ∧ ops ≠ [] ∧
      (ops.length ≤ 3 → ∃ x, s.worker t = some x ∧ x.context.state = .idle) ∧
      (ops.length ≤ 2 → s.task t = .interruptible)
  | .switching (.exit _) ops => ops <:+ wakeUpContext ∧ ops ≠ []
  | .yieldAdd => s.task t = .interruptible ∧
      ∃ w, s.worker t = some w ∧ w.context.state = .idle
  | .schedule (.exec _) | .blocked (.exec _) | .schedAttach _ | .startup | .startReturn
  | .dqTest _ | .dqWait _ | .dqReturn | .evTest | .evWait | .evReturn => (s.scheduler t).isSome
  | .nextContext c => IsHandle c (s.batches t)
  | .yieldParent _ | .exitParent => (s.worker t).isSome
  | _ => True

/-- What the record of a live worker says, by its place. -/
structure WorkerOk (σ : Handoff Pid ListId Event) (t : Pid) (w : Worker) : Prop where
  attached : σ.place t ≠ .entering → ∃ l, w.complist = some l
  own : ∀ l, σ.place t = .queued l → w.complist = some l
  idle : (∀ p, σ.place t ≠ .under p) → σ.place t ≠ .entering → σ.place t ≠ .leaving →
    w.context.state = .idle
  parent : ∀ p, σ.phase p = .execWait t → w.context.parent = .context p

/-- The hand-over state a device is in. -/
structure Abs (s : Device) (σ : Handoff Pid ListId Event) : Prop where
  phase : ∀ t, σ.phase t = (s.pc t).phase (s.task t)
  batches : σ.batches = s.batches
  ready : σ.ready = s.ready
  rings : RingFamily s.heap (linked σ) (fun _ => none)
  live : ∀ t, s.worker t = none ↔ σ.place t = .off
  worker : ∀ t w, s.worker t = some w → WorkerOk σ t w
  pc : ∀ t, PcOk s t (s.pc t)
  started : ∀ p, σ.started p = s.started p
  hist : σ.hist = s.hist
  fault : s.fault = false

section Frame

variable {s s' : Device} {σ σ' : Handoff Pid ListId Event}

/-- What thread `x` relies on survives the steps of others. -/
theorem PcOk.frame {x : Pid} {c : Pc} (h : PcOk s x c) (ht : s'.task x = s.task x)
    (hw : s'.worker x = s.worker x) (hs : (s.scheduler x).isSome → (s'.scheduler x).isSome)
    (hb : s'.batches x = s.batches x)
    (hp : ∀ w ops, c = .switching (.exec w) ops → s'.worker w = s.worker w) : PcOk s' x c := by
  cases c with
  | switching k ops =>
    cases k with
    | exec w =>
      simp only [PcOk, ht, hp w ops rfl] at h ⊢
      exact ⟨h.1, h.2.1, hs h.2.2.1, h.2.2.2⟩
    | _ => simpa only [PcOk, ht, hw] using h
  | schedule c =>
    cases c with
    | exec w => exact hs h
    | _ => trivial
  | blocked c =>
    cases c with
    | exec w => exact hs h
    | _ => trivial
  | schedAttach | startup | startReturn | dqTest | dqWait | dqReturn | evTest | evWait
  | evReturn => exact hs h
  | nextContext c => simpa only [PcOk, hb] using h
  | enterAdd | yieldAdd | yieldParent | exitParent => simpa only [PcOk, ht, hw] using h
  | _ => trivial

/-- A thread that `schedule()` holds relies on its table entry at most. -/
theorem PcOk.of_suspended {x : Pid} {c : Pc} {v : TaskState} (h : PcOk s x c)
    (hs : (s.scheduler x).isSome → (s'.scheduler x).isSome)
    (hv : c.phase v = .parked ∨ ∃ w, c.phase v = .execWait w) : PcOk s' x c := by
  cases c with
  | switching k ops => cases k <;> simp [Pc.phase] at hv
  | schedule c =>
    cases c with
    | exec w => exact hs h
    | _ => trivial
  | blocked c =>
    cases c with
    | exec w => exact hs h
    | _ => trivial
  | _ => simp [Pc.phase] at hv

/-- What `wake_up_process` makes of a suspended thread. -/
theorem Pc.phase_woken {c : Pc} {v : TaskState} (h : c.phase v = .parked) :
    c.phase .running = .woken := by
  cases c with
  | switching k ops => cases k <;> simp [Pc.phase] at h
  | schedule c | blocked c => cases c <;> cases v <;> simp [Pc.phase, Call.phase] at h ⊢
  | _ => simp [Pc.phase] at h

theorem Pc.phase_resumed {c : Pc} {v : TaskState} {w : Pid} (h : c.phase v = .execWait w) :
    c.phase .running = .resumed w := by
  cases c with
  | switching k ops => cases k <;> simp [Pc.phase] at h
  | schedule c | blocked c => cases c <;> cases v <;> simp_all [Pc.phase, Call.phase]
  | _ => simp [Pc.phase] at h

theorem Pc.starting_of_phase {c : Pc} {v : TaskState} (h : c.phase v ≠ .active) :
    c.starting = false := by
  cases c with
  | schedAttach | startup => exact absurd rfl h
  | _ => rfl

theorem Abs.phase_update (hA : Abs s σ) {t : Pid} {c : Pc} {v : Phase Pid}
    (hpc : s'.pc = Function.update s.pc t c) (htask : ∀ x, x ≠ t → s'.task x = s.task x)
    (hv : c.phase (s'.task t) = v) (x : Pid) :
    Function.update σ.phase t v x = (s'.pc x).phase (s'.task x) := by
  by_cases hx : x = t
  · subst hx
    rw [hpc, Function.update_self, Function.update_self, hv]
  · rw [hpc, Function.update_of_ne hx, Function.update_of_ne hx, hA.phase x, htask x hx]

theorem Abs.phase_keep (hA : Abs s σ) {t : Pid} {c : Pc} (hpc : s'.pc = Function.update s.pc t c)
    (htask : ∀ x, x ≠ t → s'.task x = s.task x)
    (hv : c.phase (s'.task t) = (s.pc t).phase (s.task t)) (x : Pid) :
    σ.phase x = (s'.pc x).phase (s'.task x) := by
  rw [← hA.phase_update hpc htask hv x, ← hA.phase t, Function.update_eq_self]

/-- Thread `t` moves to `c`. The data of the other threads may change only while they are
suspended, and that of a worker only by the thread that is executing it. -/
theorem Abs.pc_update (hA : Abs s σ) {t : Pid} {c : Pc} (hpc : s'.pc = Function.update s.pc t c)
    (hok : PcOk s' t c) (hsch : ∀ x, (s.scheduler x).isSome → (s'.scheduler x).isSome)
    (hother : ∀ x, x ≠ t →
      (s'.task x = s.task x ∧ s'.worker x = s.worker x ∧ s'.batches x = s.batches x) ∨
        σ.phase x = .parked ∨ ∃ w, σ.phase x = .execWait w)
    (hexec : ∀ x w, x ≠ t → σ.phase x = .execPre w → s'.worker w = s.worker w) (x : Pid) :
    PcOk s' x (s'.pc x) := by
  by_cases hx : x = t
  · subst hx
    rwa [hpc, Function.update_self]
  · rw [hpc, Function.update_of_ne hx]
    rcases hother x hx with ⟨htask, hw, hb⟩ | hsus
    · apply (hA.pc x).frame htask hw (hsch x) hb
      intro w ops hc
      apply hexec x w hx
      rw [hA.phase x, hc]
      rfl
    · rw [hA.phase x] at hsus
      exact (hA.pc x).of_suspended (hsch x) hsus

theorem Abs.started_update (hA : Abs s σ) {t : Pid} {c : Pc}
    (hpc : s'.pc = Function.update s.pc t c)
    (hsch : ∀ x, (s'.scheduler x).isSome = (s.scheduler x).isSome)
    (hc : c.starting = (s.pc t).starting) (x : Pid) : σ.started x = s'.started x := by
  rw [hA.started x, Device.started, Device.started, hsch x, hpc]
  by_cases hx : x = t
  · subst hx
    rw [Function.update_self, hc]
  · rw [Function.update_of_ne hx]

/-- A step that leaves the hand-over as it is: thread `t` moves within its phase, and changes
at most its own record, or that of the suspended worker it is executing. -/
theorem Abs.silent (hA : Abs s σ) (t : Pid) (c : Pc) (hheap : s'.heap = s.heap)
    (hb : s'.batches = s.batches) (hr : s'.ready = s.ready) (hf : s'.fault = s.fault)
    (hh : s'.hist = s.hist) (hpc : s'.pc = Function.update s.pc t c)
    (htask : ∀ x, x ≠ t → s'.task x = s.task x)
    (hsch : ∀ x, (s'.scheduler x).isSome = (s.scheduler x).isSome)
    (hstart : c.starting = (s.pc t).starting)
    (hphase : c.phase (s'.task t) = (s.pc t).phase (s.task t)) (hok : PcOk s' t c)
    (hlive : ∀ x, s'.worker x = none ↔ s.worker x = none)
    (hwork : ∀ x w, s'.worker x = some w → s.worker x = some w ∨ WorkerOk σ x w)
    (hown : ∀ x, x ≠ t → s'.worker x = s.worker x ∨ σ.phase x = .parked)
    (hexec : ∀ x w, x ≠ t → σ.phase x = .execPre w → s'.worker w = s.worker w) : Abs s' σ where
  phase := hA.phase_keep hpc htask hphase
  batches := by rw [hA.batches, hb]
  ready := by rw [hA.ready, hr]
  rings := by
    rw [hheap]
    exact hA.rings
  live x := by rw [hlive x, hA.live x]
  worker x w hw := (hwork x w hw).elim (hA.worker x w) id
  pc := by
    apply hA.pc_update hpc hok (fun x => (hsch x).symm ▸ id) _ hexec
    intro x hx
    rcases hown x hx with hsame | hparked
    · exact Or.inl ⟨htask x hx, hsame, by rw [hb]⟩
    · exact Or.inr (Or.inl hparked)
  started := hA.started_update hpc hsch hstart
  hist := by rw [hA.hist, hh]
  fault := by rw [hf, hA.fault]

/-- The usual silent step touches no worker record at all. -/
theorem Abs.move (hA : Abs s σ) (t : Pid) (c : Pc) (hheap : s'.heap = s.heap)
    (hb : s'.batches = s.batches) (hr : s'.ready = s.ready) (hf : s'.fault = s.fault)
    (hh : s'.hist = s.hist) (hpc : s'.pc = Function.update s.pc t c)
    (htask : ∀ x, x ≠ t → s'.task x = s.task x)
    (hsch : ∀ x, (s'.scheduler x).isSome = (s.scheduler x).isSome)
    (hstart : c.starting = (s.pc t).starting)
    (hphase : c.phase (s'.task t) = (s.pc t).phase (s.task t)) (hok : PcOk s' t c)
    (hw : s'.worker = s.worker) : Abs s' σ := by
  apply hA.silent t c hheap hb hr hf hh hpc htask hsch hstart hphase hok
  · intro x
    rw [hw]
  · intro x w hx
    rw [hw] at hx
    exact Or.inl hx
  · intro x _
    exact Or.inl (by rw [hw])
  · intro x w _ _
    rw [hw]

theorem Abs.setPc (hA : Abs s σ) (t : Pid) (c : Pc) (hstart : c.starting = (s.pc t).starting)
    (hphase : c.phase (s.task t) = (s.pc t).phase (s.task t)) (hok : PcOk s t c) :
    Abs (s.setPc t c) σ :=
  hA.move t c rfl rfl rfl rfl rfl rfl (fun _ _ => rfl) (fun _ => rfl) hstart hphase hok rfl

/-- Going to sleep in `wait_event_interruptible`, and waking up there. -/
theorem Abs.setTaskPc (hA : Abs s σ) (t : Pid) (v : TaskState) (c : Pc)
    (hstart : c.starting = (s.pc t).starting) (hphase : (s.pc t).phase (s.task t) = .active)
    (hc : ∀ v, c.phase v = .active) (hok : PcOk (s.setTask t v) t c) :
    Abs ((s.setTask t v).setPc t c) σ := by
  refine hA.move t c rfl rfl rfl rfl rfl rfl ?_ (fun _ => rfl) hstart ?_ hok rfl
  · intro x hx
    exact Function.update_of_ne hx v s.task
  · rw [hc, hphase]

end Frame

section Steps

variable {s : Device} {σ : Handoff Pid ListId Event}

/-- The next state is the same hand-over state, or the one after a step of the hand-over. -/
def Simulates (s' : Device) (σ : Handoff Pid ListId Event) : Prop :=
  ∃ σ', Relation.ReflGen (Handoff.Step Event.context) σ σ' ∧ Abs s' σ'

theorem Abs.simulates (hA : Abs s σ) : Simulates s σ :=
  ⟨σ, .refl, hA⟩

theorem linked_update_place (σ : Handoff Pid ListId Event) (ph : Pid → Phase Pid)
    (h : List (Obs Pid ListId Event)) (t : Pid) (v : Place Pid ListId)
    (hv : v.isHanded = (σ.place t).isHanded) :
    linked { σ with phase := ph, place := Function.update σ.place t v, hist := h } = linked σ := by
  funext n
  cases n with
  | head l => rfl
  | context c =>
    simp only [linked, Function.update_apply]
    by_cases hc : c = t
    · rw [if_pos hc, hv, hc]
    · rw [if_neg hc]

/-- A context that is neither queued, nor in a batch, nor handed out is in no ring. -/
theorem not_mem_linked (hI : σ.Inv) (t : Pid) (hout : (σ.place t).unlisted = true) (n : Node)
    (k : List Node) (hn : linked σ n = some k) : .context t ∉ n :: k := by
  intro hm
  cases n with
  | head l =>
    simp only [linked, Option.some.injEq] at hn
    subst hn
    simp only [List.mem_cons, reduceCtorEq, List.mem_map, Node.context.injEq, exists_eq_right,
      false_or] at hm
    rw [(hI.mem_queue l t).mp hm] at hout
    cases hout
  | context c =>
    simp only [linked, Option.ite_none_right_eq_some, Option.some.injEq] at hn
    obtain ⟨hc, rfl⟩ := hn
    simp only [List.mem_cons, Node.context.injEq, List.mem_map, exists_eq_right] at hm
    rcases hm with rfl | hm
    · cases hp : σ.place t with
      | handed p =>
        rw [hp] at hout
        cases hout
      | _ =>
        rw [hp] at hc
        cases hc
    · obtain ⟨q, hq⟩ := (hI.mem_rest c t).mp hm
      rw [hq] at hout
      cases hout

/-- A claim changes the ring behind the new handle only: the others it moves were behind no
handle of their own. -/
theorem linked_claim {σ' : Handoff Pid ListId Event} {p c : Pid} {cs : List Pid}
    (hplace : σ'.place = σ.claim p c cs) (hout : ∀ x ∈ cs, (σ.place x).isHanded = false)
    (x : Pid) (hx : x ≠ c) (hrest : σ'.rest x = σ.rest x) :
    linked σ' (.context x) = linked σ (.context x) := by
  have hsame : (σ'.place x).isHanded = (σ.place x).isHanded := by
    rw [hplace]
    by_cases hm : x ∈ cs
    · rw [Handoff.claim_behind p hx hm, hout x hm]
      rfl
    · rw [Handoff.claim_other p (by simp [hx, hm])]
  simp only [linked, hsame, hrest]

theorem linked_claimed {σ' : Handoff Pid ListId Event} {p c : Pid} {cs : List Pid}
    (hplace : σ'.place = σ.claim p c cs) (hrest : σ'.rest c = cs) :
    linked σ' (.context c) = some (cs.map .context) := by
  simp [linked, hplace, hrest, Handoff.claim_self, Place.isHanded]

-- What a move of one worker says about the records: the worker entered, left, or went from one
-- place to another.

theorem Abs.live_update (hA : Abs s σ) {t : Pid} {o : Option Worker} {v : Place Pid ListId}
    (h : o = none ↔ v = .off) (x : Pid) :
    Function.update s.worker t o x = none ↔ Function.update σ.place t v x = .off := by
  by_cases hx : x = t
  · subst hx
    rwa [Function.update_self, Function.update_self]
  · rw [Function.update_of_ne hx, Function.update_of_ne hx, hA.live x]

theorem Abs.live_place (hA : Abs s σ) {t : Pid} {v : Place Pid ListId} (hold : σ.place t ≠ .off)
    (hv : v ≠ .off) (x : Pid) : s.worker x = none ↔ Function.update σ.place t v x = .off := by
  have hsame := hA.live_update (t := t) (o := s.worker t) (v := v) (by simp [hA.live, hold, hv]) x
  rwa [Function.update_eq_self] at hsame

theorem Abs.live_claim (hA : Abs s σ) {p c : Pid} {cs : List Pid}
    (hlisted : ∀ x ∈ c :: cs, (σ.place x).unlisted = false) (x : Pid) :
    s.worker x = none ↔ σ.claim p c cs x = .off := by
  rw [hA.live x]
  by_cases hx : x ∈ c :: cs
  · have hold : σ.place x ≠ .off := by
      intro h
      have hl := hlisted x hx
      rw [h] at hl
      cases hl
    have hnew : σ.claim p c cs x ≠ .off := by
      unfold Handoff.claim
      split
      · simp
      · rw [if_pos ((List.mem_cons.mp hx).resolve_left (by assumption))]
        simp
    simp [hold, hnew]
  · rw [Handoff.claim_other p hx]

theorem WorkerOk.congr {σ' : Handoff Pid ListId Event} {x : Pid} {w : Worker} (h : WorkerOk σ x w)
    (hplace : σ'.place x = σ.place x)
    (hphase : ∀ p, σ'.phase p = .execWait x → σ.phase p = .execWait x) : WorkerOk σ' x w where
  attached := by
    rw [hplace]
    exact h.attached
  own := by
    rw [hplace]
    exact h.own
  idle := by
    rw [hplace]
    exact h.idle
  parent p hp := h.parent p (hphase p hp)

/-- The record of a listed worker fits wherever it goes, but for the end of another queue. -/
theorem WorkerOk.of_listed {σ' : Handoff Pid ListId Event} {x : Pid} {w : Worker}
    (h : WorkerOk σ x w) (hold : (σ.place x).unlisted = false) (hq : ∀ l, σ'.place x ≠ .queued l)
    (hphase : ∀ p, σ'.phase p = .execWait x → σ.phase p = .execWait x) : WorkerOk σ' x w := by
  have hne (v : Place Pid ListId) (hv : v.unlisted = true) : σ.place x ≠ v := by
    rintro rfl
    rw [hold] at hv
    cases hv
  exact {
    attached := fun _ => h.attached (hne _ rfl)
    own := fun l hl => absurd hl (hq l)
    idle := fun _ _ _ => h.idle (fun p => hne _ rfl) (hne _ rfl) (hne _ rfl)
    parent := fun p hp => h.parent p (hphase p hp) }

theorem WorkerOk.claim {σ' : Handoff Pid ListId Event} {x p c : Pid} {cs : List Pid} {w : Worker}
    (h : WorkerOk σ x w) (hlisted : ∀ x ∈ c :: cs, (σ.place x).unlisted = false)
    (hplace : σ'.place = σ.claim p c cs) (hphase : σ'.phase = σ.phase) : WorkerOk σ' x w := by
  have hwait (q : Pid) (hq : σ'.phase q = .execWait x) : σ.phase q = .execWait x := by
    rwa [hphase] at hq
  by_cases hx : x ∈ c :: cs
  · refine h.of_listed (hlisted x hx) (fun l => ?_) hwait
    rw [hplace]
    by_cases hxc : x = c
    · simp [hxc, Handoff.claim_self]
    · simp [Handoff.claim_behind p hxc ((List.mem_cons.mp hx).resolve_left hxc)]
  · exact h.congr (by rw [hplace, Handoff.claim_other p hx]) hwait

/-- The record of a worker that is entering says nothing yet but who executes it. -/
theorem WorkerOk.of_entering {x : Pid} {w : Worker} (h : σ.place x = .entering)
    (hpar : ∀ p, σ.phase p = .execWait x → w.context.parent = .context p) : WorkerOk σ x w where
  attached hne := absurd h hne
  own _ hl := nomatch h.symm.trans hl
  idle _ hne := absurd h hne
  parent := hpar

/-- While a worker is under a scheduler or leaving it, its state may be any. -/
theorem WorkerOk.of_away {x : Pid} {w : Worker}
    (h : (∃ p, σ.place x = .under p) ∨ σ.place x = .leaving) (hat : ∃ l, w.complist = some l)
    (hpar : ∀ p, σ.phase p = .execWait x → w.context.parent = .context p) : WorkerOk σ x w where
  attached _ := hat
  own l hl := by
    rcases h with ⟨p, h⟩ | h <;> cases h.symm.trans hl
  idle hu _ hl := by
    rcases h with ⟨p, h⟩ | h
    · exact absurd h (hu p)
    · exact absurd h hl
  parent := hpar

/-- A store to a scheduler that is there keeps the table as it is. -/
theorem Device.isSome_setScheduler {p : Pid} (hp : (s.scheduler p).isSome) (y : Scheduler)
    (x : Pid) : ((s.setScheduler p y).scheduler x).isSome = (s.scheduler x).isSome := by
  by_cases hx : x = p
  · subst hx
    simp [Device.setScheduler, hp]
  · simp [Device.setScheduler, Function.update_of_ne hx]

theorem Abs.active (hA : Abs s σ) {t : Pid} {c : Pc} (hpc : s.pc t = c)
    (hc : ∀ v, c.phase v = .active) : σ.phase t = .active := by
  rw [hA.phase t, hpc, hc]

/-- A new worker enters. Its list node is in no ring, so its content does not matter. -/
theorem Abs.enter (hA : Abs s σ) (hI : σ.Inv) (t : Pid) (l : ListId) (node : Links Node)
    (w : Worker) (hpc : s.pc t = .user) (hw : s.worker t = none) :
    Simulates (({ s with heap := Function.update s.heap (.context t) node }.setWorker t
      (some w)).setPc t (.enterAttach l)) σ := by
  have hoff := (hA.live t).mp hw
  have hact := hA.active hpc (fun _ => rfl)
  have hnone := hI.not_executed t (by simp [hoff])
  refine ⟨_, .single (.enter σ t hact hoff), ?_⟩
  constructor
  case phase => exact hA.phase_update (by rfl) (fun _ _ => by rfl) (by rfl)
  case batches => exact hA.batches
  case ready => exact hA.ready
  case rings =>
    rw [linked_update_place σ _ _ t _ (by rw [hoff]; rfl)]
    apply hA.rings.restrict
    · intro a k ha
      exact ha
    · intro a x hx
      rfl
    · intro a k x ha hx
      apply Function.update_of_ne
      rintro rfl
      exact not_mem_linked hI t (by rw [hoff]; rfl) a k ha hx
  case live => exact hA.live_update (by simp)
  case worker =>
    intro x w' hx
    have hphase (p : Pid) (hp : Function.update σ.phase t .entering p = .execWait x) :
        σ.phase p = .execWait x := (of_update_eq (by simp) hp).2
    rcases update_cases hx with ⟨rfl, -⟩ | ⟨hxt, hx⟩
    · exact .of_entering (Function.update_self ..) fun p hp => absurd (hphase p hp) (hnone p).2
    · exact (hA.worker x w' hx).congr (Function.update_of_ne hxt _ _) hphase
  case pc =>
    refine hA.pc_update (by rfl) (by trivial) (fun _ hx => hx) ?_ ?_
    · intro x hx
      exact Or.inl ⟨rfl, Function.update_of_ne hx _ _, rfl⟩
    · intro x y hx hy
      apply Function.update_of_ne
      rintro rfl
      exact (hnone x).1 hy
  case started => exact hA.started_update (by rfl) (fun _ => by rfl) (by rw [hpc]; rfl)
  case hist => exact hA.hist
  case fault => exact hA.fault

theorem linked_insert (σ : Handoff Pid ListId Event) (ph : Pid → Phase Pid)
    (h : List (Obs Pid ListId Event)) (t : Pid) (l : ListId) :
    linked { σ with
      phase := ph
      place := Function.update σ.place t (.queued l)
      queue := Function.update σ.queue l (σ.queue l ++ [t])
      hist := h } =
    Function.update (Function.update (linked σ) (.context t) none) (.head l)
      (some ((σ.queue l).map .context ++ [.context t])) := by
  funext n
  cases n with
  | head k =>
    simp only [linked, Function.update_apply, Node.head.injEq, reduceCtorEq, if_false]
    by_cases hk : k = l
    · rw [if_pos hk, if_pos hk, List.map_append, List.map_singleton]
    · rw [if_neg hk, if_neg hk]
  | context c =>
    simp only [linked, Function.update_apply, Node.context.injEq, reduceCtorEq, if_false]
    by_cases hc : c = t
    · rw [if_pos hc, if_pos hc]
      rfl
    · rw [if_neg hc, if_neg hc]

/-- A worker queues itself, at the end of its own completion list. -/
theorem Abs.insert (hA : Abs s σ) (hI : σ.Inv) (t : Pid) (l : ListId) (c : Call Pid) (w : Worker)
    (ht : σ.phase t = .entering ∨ σ.phase t = .leaving) (hc : c = .enterWorker ∨ c = .yield)
    (htask : s.task t = .interruptible) (hw : s.worker t = some w) (hl : w.complist = some l)
    (hidle : w.context.state = .idle) : Simulates (s.addSelf t l c) σ := by
  have hplace : σ.place t = .entering ∨ σ.place t = .leaving := by
    rwa [hI.entering, hI.leaving]
  have hout : (σ.place t).unlisted = true := by
    rcases hplace with h | h <;> rw [h] <;> rfl
  have hnone := hI.not_executed t (by rcases hplace with h | h <;> simp [h])
  have hns : (s.pc t).starting = false := by
    apply Pc.starting_of_phase (v := s.task t)
    rw [← hA.phase t]
    rcases ht with h | h <;> simp [h]
  -- a worker that suspends itself is in no ring, which `list_add_tail` relies on
  have hloose : Loose (linked σ) (.context t) := by
    intro a k ha hm
    exact absurd hm (not_mem_linked hI t hout a k ha)
  obtain ⟨h', hadd, hrings, -⟩ := hA.rings.listAddTail (.head l) (.context t) _ rfl rfl hloose
    (by simp)
  have hself : s.addSelf t l c =
      ({ s with heap := h' }.log (.queued t l)).setPc t (.schedule c) := by
    rw [Device.addSelf, show umsCompletionListAdd s.heap l t complistAddTail = some h' from hadd]
  rw [hself]
  refine ⟨_, .single (.insert σ t l ht), ?_⟩
  constructor
  case phase =>
    refine hA.phase_update (by rfl) (fun _ _ => by rfl) ?_
    rcases hc with rfl | rfl <;> simp [Pc.phase, Call.phase, Device.setPc, Device.log, htask]
  case batches => exact hA.batches
  case ready => exact hA.ready
  case rings =>
    rw [linked_insert]
    exact hrings
  case live => exact hA.live_place (by rcases hplace with h | h <;> simp [h]) (by simp)
  case worker =>
    intro x w' hx
    have hphase (p : Pid) (hp : Function.update σ.phase t .parked p = .execWait x) :
        σ.phase p = .execWait x := (of_update_eq (by simp) hp).2
    by_cases hxt : x = t
    · subst hxt
      obtain rfl : w = w' := by
        rw [← Option.some.injEq, ← hw]
        exact hx
      refine ⟨fun _ => ⟨l, hl⟩, fun k hk => ?_, fun _ _ _ => hidle, fun p hp => ?_⟩
      · replace hk : Function.update σ.place x (.queued l) x = .queued k := hk
        rw [Function.update_self] at hk
        exact Place.queued.inj hk ▸ hl
      · exact absurd (hphase p hp) (hnone p).2
    · exact (hA.worker x w' hx).congr (Function.update_of_ne hxt _ _) hphase
  case pc =>
    refine hA.pc_update (by rfl) ?_ (fun _ hx => hx) ?_ (fun _ _ _ _ => by rfl)
    · rcases hc with rfl | rfl <;> trivial
    · intro x hx
      exact Or.inl ⟨rfl, rfl, rfl⟩
  case started => exact hA.started_update (by rfl) (fun _ => by rfl) (by rw [hns]; rfl)
  case hist => exact congrArg (List.cons _) hA.hist
  case fault => exact hA.fault

/-- The heads and handles that are empty as `list_empty` sees them. -/
theorem Abs.listEmpty_head (hA : Abs s σ) (l : ListId) :
    listEmpty s.heap (.head l) = true ↔ σ.queue l = [] := by
  rw [listEmpty_ring s.heap (.head l) _ (hA.rings.ring (.head l) _ rfl rfl), List.map_eq_nil_iff]

theorem linked_of_handed (c p : Pid) (h : σ.place c = .handed p) :
    linked σ (.context c) = some ((σ.rest c).map .context) := by
  simp [linked, h, Place.isHanded]

theorem Abs.listEmpty_handle (hA : Abs s σ) (c p : Pid) (h : σ.place c = .handed p) :
    listEmpty s.heap (.context c) = true ↔ σ.rest c = [] := by
  rw [listEmpty_ring s.heap (.context c) _
    (hA.rings.ring (.context c) _ (linked_of_handed c p h) rfl), List.map_eq_nil_iff]

/-- A scheduler takes the whole queue of a completion list. -/
theorem Abs.dequeue (hA : Abs s σ) (hI : σ.Inv) (t : Pid) (l : ListId) (hpc : s.pc t = .dqTest l)
    (hne : ¬ listEmpty s.heap (.head l) = true) : Simulates (s.takeBatch t l) σ := by
  rw [hA.listEmpty_head l] at hne
  obtain ⟨c, cs, hq⟩ := List.exists_cons_of_ne_nil hne
  have hmem (x : Pid) (hx : x ∈ c :: cs) : σ.place x = .queued l := by
    rwa [← hI.mem_queue, hq]
  have hlisted (x : Pid) (hx : x ∈ c :: cs) : (σ.place x).unlisted = false := by
    rw [hmem x hx]
    rfl
  obtain ⟨h', htake, hrings, -⟩ := hA.rings.takeFirst (.head l) (.context c) (cs.map .context)
    (by rw [linked, hq]; rfl) rfl
  have htb : s.takeBatch t l = { s with
      heap := h'
      batches := Function.update s.batches t ([c] :: s.batches t)
      pc := Function.update s.pc t .dqReturn } := by
    rw [Device.takeBatch,
      show doDequeueUmsComplistContext s.heap l = some (.context c, h') from htake]
  rw [htb]
  refine ⟨_, .single (.dequeue σ t l c cs hq), ?_⟩
  constructor
  case phase => exact hA.phase_keep (by rfl) (fun _ _ => by rfl) (by rw [hpc]; rfl)
  case batches => rw [hA.batches]
  case ready => exact hA.ready
  case rings =>
    convert hrings using 1
    funext n
    cases n with
    | head k =>
      rw [Function.update_of_ne (by simp)]
      by_cases hk : k = l
      · simp [hk, linked]
      · simp [linked, hk]
    | context x =>
      by_cases hx : x = c
      · subst hx
        rw [Function.update_self]
        exact linked_claimed rfl (Function.update_self ..)
      · rw [Function.update_of_ne (by simpa using hx), Function.update_of_ne (by simp)]
        refine linked_claim rfl (fun y hy => ?_) x hx (Function.update_of_ne hx _ _)
        rw [hmem y (List.mem_cons_of_mem c hy)]
        rfl
  case live => exact hA.live_claim hlisted
  case worker => exact fun x w' hx => (hA.worker x w' hx).claim hlisted rfl rfl
  case pc =>
    refine hA.pc_update (by rfl) ?_ (fun _ hx => hx) ?_ (fun _ _ _ _ => by rfl)
    · have := hA.pc t
      rw [hpc] at this
      exact this
    · intro x hx
      exact Or.inl ⟨rfl, rfl, Function.update_of_ne hx _ _⟩
  case started => exact hA.started_update (by rfl) (fun _ => by rfl) (by rw [hpc]; rfl)
  case hist => exact hA.hist
  case fault => exact hA.fault

/-- The scheduler gets the next context of its batch, which becomes the handle. -/
theorem Abs.next (hA : Abs s σ) (hI : σ.Inv) (t c d : Pid) (ds : List Pid)
    (hpc : s.pc t = .nextContext c) (hr : σ.rest c = d :: ds) : Simulates (s.takeNext t c) σ := by
  have hc : IsHandle c (σ.batches t) := by
    rw [hA.batches]
    have hok := hA.pc t
    rwa [hpc] at hok
  have hcp := hI.handed_of_handle t c hc
  have hmem (x : Pid) (hx : x ∈ d :: ds) : ∃ q, σ.place x = .batch q c := by
    rwa [← hI.mem_rest, hr]
  have hlisted (x : Pid) (hx : x ∈ d :: ds) : (σ.place x).unlisted = false := by
    obtain ⟨q, hq⟩ := hmem x hx
    rw [hq]
    rfl
  have hcd : c ∉ d :: ds := by
    intro hx
    obtain ⟨q, hq⟩ := hmem c hx
    cases hcp.symm.trans hq
  obtain ⟨h', htake, hrings, -⟩ := hA.rings.takeFirst (.context c) (.context d) (ds.map .context)
    (by rw [linked_of_handed c t hcp, hr]; rfl) rfl
  have hne : ¬ listEmpty s.heap (.context c) = true := by
    rw [hA.listEmpty_handle c t hcp, hr]
    simp
  have htn : s.takeNext t c = { s with
      heap := h'
      batches := Function.update s.batches t (handNext c d (s.batches t))
      }.ret t .nextContext .ok := by
    rw [Device.takeNext, umsComplistNextContext, if_neg hne, htake]
    rfl
  rw [htn]
  refine ⟨_, .single (.next σ t c d ds hc hr), ?_⟩
  constructor
  case phase => exact hA.phase_keep (by rfl) (fun _ _ => by rfl) (by rw [hpc]; rfl)
  case batches =>
    rw [hA.batches]
    rfl
  case ready => exact hA.ready
  case rings =>
    change RingFamily h' _ _
    convert hrings using 1
    funext n
    cases n with
    | head k => simp [linked]
    | context x =>
      by_cases hx : x = d
      · subst hx
        rw [Function.update_self]
        exact linked_claimed rfl (Function.update_self ..)
      rw [Function.update_of_ne (by simpa using hx)]
      by_cases hxc : x = c
      · -- the old handle is alone from now on
        subst hxc
        simp [linked, Handoff.claim_other t hcd, hcp, Place.isHanded, Function.update_of_ne hx]
      · rw [Function.update_of_ne (by simpa using hxc)]
        refine linked_claim rfl (fun y hy => ?_) x hx ?_
        · obtain ⟨q, hq⟩ := hmem y (List.mem_cons_of_mem d hy)
          rw [hq]
          rfl
        · show Function.update (Function.update σ.rest c []) d ds x = σ.rest x
          rw [Function.update_of_ne hx, Function.update_of_ne hxc]
  case live => exact hA.live_claim hlisted
  case worker => exact fun x w' hx => (hA.worker x w' hx).claim hlisted rfl rfl
  case pc =>
    refine hA.pc_update (by rfl) (by trivial) (fun _ hx => hx) ?_ (fun _ _ _ _ => by rfl)
    intro x hx
    exact Or.inl ⟨rfl, rfl, Function.update_of_ne hx _ _⟩
  case started => exact hA.started_update (by rfl) (fun _ => by rfl) (by rw [hpc]; rfl)
  case hist => exact congrArg (List.cons _) hA.hist
  case fault => exact hA.fault

/-- The end of a batch: all of it may be executed from now on. -/
theorem Abs.close (hA : Abs s σ) (hI : σ.Inv) (t c : Pid) (hpc : s.pc t = .nextContext c)
    (hr : σ.rest c = []) : Simulates (s.takeNext t c) σ := by
  have hc : IsHandle c (σ.batches t) := by
    rw [hA.batches]
    have hok := hA.pc t
    rwa [hpc] at hok
  have he := (hA.listEmpty_handle c t (hI.handed_of_handle t c hc)).mpr hr
  have htn : s.takeNext t c = { s with
      batches := Function.update s.batches t (closeBatch c (s.batches t)).2
      ready := Function.update s.ready t (s.ready t ++ (closeBatch c (s.batches t)).1)
      }.ret t .nextContext .ok := by
    rw [Device.takeNext, umsComplistNextContext, if_pos he]
  rw [htn]
  refine ⟨_, .single (.close σ t c hc hr), ?_⟩
  constructor
  case phase => exact hA.phase_keep (by rfl) (fun _ _ => by rfl) (by rw [hpc]; rfl)
  case batches =>
    rw [hA.batches]
    rfl
  case ready =>
    rw [hA.batches, hA.ready]
    rfl
  case rings => exact hA.rings
  case live => exact hA.live
  case worker =>
    intro x w' hx
    exact (hA.worker x w' hx).congr rfl (fun _ hp => hp)
  case pc =>
    refine hA.pc_update (by rfl) (by trivial) (fun _ hx => hx) ?_ (fun _ _ _ _ => by rfl)
    intro x hx
    exact Or.inl ⟨rfl, rfl, Function.update_of_ne hx _ _⟩
  case started => exact hA.started_update (by rfl) (fun _ => by rfl) (by rw [hpc]; rfl)
  case hist => exact congrArg (List.cons _) hA.hist
  case fault => exact hA.fault

/-- A scheduler begins to execute a context it was handed. -/
theorem Abs.exec (hA : Abs s σ) (hI : σ.Inv) (t w : Pid) (hpc : s.pc t = .user)
    (hw : w ∈ s.ready t) (hsch : (s.scheduler t).isSome) :
    Simulates (({ s with ready := Function.update s.ready t ((s.ready t).erase w) }.log
      (.exec t w)).setPc t (.switching (.exec w) prepareSwitchContext)) σ := by
  have hact := hA.active hpc (fun _ => rfl)
  rw [← hA.ready] at hw
  have hh := hI.handed_of_mem t w (Or.inl hw)
  have hst : σ.started t = true := by
    rw [hA.started t, Device.started, hsch, hpc]
    rfl
  refine ⟨_, .single (.exec σ t w hact hw hst), ?_⟩
  constructor
  case phase => exact hA.phase_update (by rfl) (fun _ _ => by rfl) (by rfl)
  case batches => exact hA.batches
  case ready =>
    rw [hA.ready]
    rfl
  case rings =>
    refine hA.rings.restrict _ _ ?_ (fun _ _ hx => nomatch hx) (fun _ _ _ _ _ => rfl)
    intro n k hn
    cases n with
    | head l => exact hn
    | context x =>
      by_cases hxw : x = w
      · simp [linked, hxw, Place.isHanded] at hn
      · simpa [linked, Function.update_of_ne hxw] using hn
  case live => exact hA.live_place (by simp [hh]) (by simp)
  case worker =>
    intro x w' hx
    have hphase (p : Pid) (hp : Function.update σ.phase t (.execPre w) p = .execWait x) :
        σ.phase p = .execWait x := (of_update_eq (by simp) hp).2
    by_cases hxw : x = w
    · subst hxw
      exact (hA.worker x w' hx).of_listed (by rw [hh]; rfl) (by simp) hphase
    · exact (hA.worker x w' hx).congr (Function.update_of_ne hxw _ _) hphase
  case pc =>
    refine hA.pc_update (by rfl) ?_ (fun _ hx => hx) ?_ (fun _ _ _ _ => by rfl)
    · -- all six stores are still ahead, so nothing about the worker or the task is known yet
      have hlen : prepareSwitchContext.length = 6 := rfl
      exact ⟨List.suffix_rfl, by decide, hsch, by simp [hlen], by simp [hlen]⟩
    · intro x hx
      exact Or.inl ⟨rfl, rfl, rfl⟩
  case started => exact hA.started_update (by rfl) (fun _ => by rfl) (by rw [hpc]; rfl)
  case hist => exact congrArg (List.cons _) hA.hist
  case fault => exact hA.fault

/-- The executing scheduler, already marked as sleeping, wakes the worker. -/
theorem Abs.wake (hA : Abs s σ) (hI : σ.Inv) (t w : Pid)
    (hpc : s.pc t = .switching (.exec w) [.wakeUp]) :
    Simulates { s.setTask w .running with
      pc := Function.update s.pc t (.schedule (.exec w))
      hist := .wakeWorker t w :: s.hist } σ := by
  have hok := hA.pc t
  rw [hpc] at hok
  obtain ⟨-, -, hsch, hpar, htask⟩ := hok
  have hph : σ.phase t = .execPre w := by
    rw [hA.phase t, hpc]
    rfl
  have hu := hI.execPre t w hph
  have hpk : σ.phase w = .parked := hI.parked_of_execPre hph
  have hne : t ≠ w := by
    rintro rfl
    rw [hph] at hpk
    cases hpk
  refine ⟨_, .single (.wake σ t w hph), ?_⟩
  constructor
  case phase =>
    intro x
    simp only [Device.setTask, Function.update_apply]
    by_cases hxt : x = t
    · subst hxt
      simp [hne, Pc.phase, Call.phase, htask]
    · by_cases hxw : x = w
      · subst hxw
        rw [hA.phase x] at hpk
        simp only [hxt, if_false, if_true]
        exact (Pc.phase_woken hpk).symm
      · simp only [hxt, hxw, if_false]
        exact hA.phase x
  case batches => exact hA.batches
  case ready => exact hA.ready
  case rings => exact hA.rings
  case live => exact hA.live
  case worker =>
    intro x w' hx
    have hold := hA.worker x w' hx
    refine ⟨hold.attached, hold.own, hold.idle, fun p hp => ?_⟩
    rcases update_cases hp with ⟨rfl, he⟩ | ⟨-, hp⟩
    · -- the scheduler has stored itself as the parent before
      obtain ⟨y, hy, hparent⟩ := hpar (by simp)
      obtain rfl : w = x := Phase.execWait.inj he
      obtain rfl : y = w' := Option.some.inj (hy.symm.trans hx)
      exact hparent
    · exact hold.parent p (of_update_eq (by simp) hp).2
  case pc =>
    refine hA.pc_update (by rfl) (by exact hsch) (fun _ hx => hx) ?_ (fun _ _ _ _ => by rfl)
    intro x hx
    by_cases hxw : x = w
    · subst hxw
      exact Or.inr (Or.inl hpk)
    · exact Or.inl ⟨Function.update_of_ne hxw _ _, rfl, rfl⟩
  case started => exact hA.started_update (by rfl) (fun _ => by rfl) (by rw [hpc]; rfl)
  case hist => exact congrArg (List.cons _) hA.hist
  case fault => exact hA.fault

/-- Thread `t` changes its phase, and nothing else that the hand-over sees. -/
theorem Abs.rephase {s' : Device} {h : List (Obs Pid ListId Event)} (hA : Abs s σ) (t : Pid)
    (c : Pc) (v : Phase Pid) (hv : c.phase (s.task t) = v) (hw : ∀ x, v ≠ .execWait x)
    (hok : PcOk s t c) (hstart : c.starting = (s.pc t).starting)
    (hsame : s'.heap = s.heap ∧ s'.batches = s.batches ∧ s'.ready = s.ready ∧
      s'.worker = s.worker ∧ s'.task = s.task ∧ s'.fault = s.fault)
    (hsch : ∀ x, (s'.scheduler x).isSome = (s.scheduler x).isSome)
    (hpc : s'.pc = Function.update s.pc t c) (hh : h = s'.hist) :
    Abs s' { σ with phase := Function.update σ.phase t v, hist := h } := by
  obtain ⟨hheap, hb, hr, hwork, htask, hf⟩ := hsame
  constructor
  case phase => exact hA.phase_update hpc (fun _ _ => by rw [htask]) (by rw [htask, hv])
  case batches => rw [hb, ← hA.batches]
  case ready => rw [hr, ← hA.ready]
  case rings =>
    rw [hheap]
    exact hA.rings
  case live =>
    rw [hwork]
    exact hA.live
  case worker =>
    intro x w hx
    rw [hwork] at hx
    exact (hA.worker x w hx).congr rfl fun p hp => (of_update_eq (hw x) hp).2
  case pc =>
    refine hA.pc_update hpc ?_ (fun x hx => (hsch x).symm ▸ hx) ?_ (fun _ _ _ _ => by rw [hwork])
    · exact hok.frame (by rw [htask]) (by rw [hwork]) (fun hx => (hsch t).symm ▸ hx) (by rw [hb])
        (fun _ _ _ => by rw [hwork])
    · intro x _
      exact Or.inl ⟨by rw [htask], by rw [hwork], by rw [hb]⟩
  case started => exact hA.started_update hpc hsch hstart
  case hist => exact hh
  case fault => rw [hf, hA.fault]

/-- A worker that was woken returns from `schedule()`. -/
theorem Abs.resume (hA : Abs s σ) (t : Pid) (c : Call Pid) (hc : c = .enterWorker ∨ c = .yield)
    (hpc : (s.pc t).phase (s.task t) = .woken) : Simulates (s.ret t c .ok) σ := by
  have hph : σ.phase t = .woken := by rw [hA.phase t, hpc]
  have hns : (s.pc t).starting = false := Pc.starting_of_phase (by rw [hpc]; simp)
  refine ⟨_, .single (.resume σ t c hph hc), ?_⟩
  exact hA.rephase t .user .active rfl (by simp) trivial hns.symm ⟨rfl, rfl, rfl, rfl, rfl, rfl⟩
    (fun _ => rfl) rfl (congrArg (List.cons _) hA.hist)

/-- A scheduler that its worker has woken returns from `exec_ums_context`. -/
theorem Abs.execReturn (hA : Abs s σ) (t w : Pid)
    (hpc : (s.pc t).phase (s.task t) = .resumed w) : Simulates (s.ret t (.exec w) .ok) σ := by
  have hph : σ.phase t = .resumed w := by rw [hA.phase t, hpc]
  have hns : (s.pc t).starting = false := Pc.starting_of_phase (by rw [hpc]; simp)
  refine ⟨_, .single (.execReturn σ t w hph), ?_⟩
  exact hA.rephase t .user .active rfl (by simp) trivial hns.symm ⟨rfl, rfl, rfl, rfl, rfl, rfl⟩
    (fun _ => rfl) rfl (congrArg (List.cons _) hA.hist)

/-- A worker that runs has the parent that executed it. -/
theorem Abs.parent_under (hA : Abs s σ) (hI : σ.Inv) (t : Pid) (w : Worker)
    (hw : s.worker t = some w) (hph : σ.phase t = .active) :
    ∃ p, σ.place t = .under p ∧ σ.phase p = .execWait t ∧ w.context.parent = .context p := by
  have hlive : σ.place t ≠ .off := by
    rw [ne_eq, ← hA.live t, hw]
    simp
  obtain ⟨p, hp⟩ := hI.under_of_active t hph hlive
  have hwait : σ.phase p = .execWait t := hI.execWait_of_under hp (by simp [hph])
  exact ⟨p, hp, hwait, (hA.worker t w hw).parent p hwait⟩

/-- A worker in `ums_worker_yield` or `ums_worker_end` has read its parent. -/
theorem Abs.readParent (hA : Abs s σ) (t p : Pid) (c : Pc)
    (hstart : c.starting = (s.pc t).starting) (hph : σ.phase t = .active)
    (hp : σ.place t = .under p) (hc : ∀ v, c.phase v = .yielding p) (hok : PcOk s t c) :
    Simulates (s.setPc t c) σ := by
  refine ⟨_, .single (.yield σ t p hph hp), ?_⟩
  exact hA.rephase t c (.yielding p) (hc _) (by simp) hok hstart ⟨rfl, rfl, rfl, rfl, rfl, rfl⟩
    (fun _ => rfl) rfl hA.hist

/-- The scheduler a worker is about to wake waits for that worker. -/
theorem Abs.waits_for (hA : Abs s σ) (hI : σ.Inv) (t p : Pid)
    (hph : σ.phase t = .yielding p ∨ σ.phase t = .posted p) :
    σ.phase p = .execWait t ∧ (s.scheduler p).isSome := by
  have hwait : σ.phase p = .execWait t := by
    apply hI.execWait_of_under (hph.elim (hI.yielding t p) (hI.posted t p))
    rcases hph with h | h <;> simp [h]
  refine ⟨hwait, ?_⟩
  have hok := hA.pc p
  rw [hA.phase p] at hwait
  cases hc : s.pc p with
  | switching k ops => cases k <;> simp [hc, Pc.phase] at hwait
  | schedule c | blocked c =>
    rw [hc] at hok hwait
    cases c with
    | exec w => exact hok
    | _ => cases hv : s.task p <;> simp [hv, Pc.phase, Call.phase] at hwait
  | _ => simp [hc, Pc.phase] at hwait

/-- A worker posts its event to the scheduler it leaves. -/
theorem Abs.post (hA : Abs s σ) (hI : σ.Inv) (t p : Pid) (e : Event) (c : Pc)
    (he : e.context = some t) (hph : σ.phase t = .yielding p) (hc : ∀ v, c.phase v = .posted p)
    (hok : PcOk s t c) :
    Simulates (((s.postEvent p e).log (.post p t e)).setPc t c) σ := by
  obtain ⟨y, hy⟩ := Option.isSome_iff_exists.mp (hA.waits_for hI t p (Or.inl hph)).2
  have hns : (s.pc t).starting = false := by
    apply Pc.starting_of_phase (v := s.task t)
    rw [← hA.phase t, hph]
    simp
  have hcs : c.starting = false := Pc.starting_of_phase (v := s.task t) (by rw [hc]; simp)
  rw [Device.postEvent, hy]
  refine ⟨_, .single (.post σ t p e hph he), ?_⟩
  refine hA.rephase t c (.posted p) (hc _) (by simp) hok (by rw [hns, hcs])
    ⟨rfl, rfl, rfl, rfl, rfl, rfl⟩ ?_ rfl (congrArg (List.cons _) hA.hist)
  exact Device.isSome_setScheduler (by simp [hy]) _

/-- A new scheduler is registered; it has not started before its startup event is queued. -/
theorem Abs.register (hA : Abs s σ) (t : Pid) (l : ListId) (y : Scheduler)
    (hpc : s.pc t = .user) (hnone : s.scheduler t = none) :
    Abs ((s.setScheduler t y).setPc t (.schedAttach l)) σ := by
  have hsch (x : Pid) (hx : (s.scheduler x).isSome) :
      (((s.setScheduler t y).setPc t (.schedAttach l)).scheduler x).isSome := by
    have hxt : x ≠ t := by
      rintro rfl
      simp [hnone] at hx
    simpa [Device.setPc, Device.setScheduler, Function.update_of_ne hxt] using hx
  constructor
  case phase => exact hA.phase_keep (by rfl) (fun _ _ => by rfl) (by rw [hpc]; rfl)
  case batches => exact hA.batches
  case ready => exact hA.ready
  case rings => exact hA.rings
  case live => exact hA.live
  case worker => exact hA.worker
  case pc =>
    refine hA.pc_update (by rfl) ?_ hsch (fun _ _ => Or.inl ⟨rfl, rfl, rfl⟩)
      (fun _ _ _ _ => by rfl)
    simp [PcOk, Device.setPc, Device.setScheduler]
  case started =>
    intro x
    rw [hA.started x]
    simp only [Device.started, Device.setPc, Device.setScheduler, Function.update_apply]
    by_cases hxt : x = t
    · simp [hxt, hnone, Pc.starting]
    · simp [hxt]
  case hist => exact hA.hist
  case fault => exact hA.fault

/-- A scheduler queues its startup event. -/
theorem Abs.start (hA : Abs s σ) (t : Pid) (hpc : s.pc t = .startup) :
    Simulates (((s.postEvent t .schedulerStartup).log (.start t .schedulerStartup)).setPc t
      .startReturn) σ := by
  have hok := hA.pc t
  rw [hpc] at hok
  obtain ⟨y, hy⟩ := Option.isSome_iff_exists.mp hok
  rw [Device.postEvent, hy]
  have hns : σ.started t = false := by
    rw [hA.started t, Device.started, hpc]
    simp [Pc.starting]
  refine ⟨_, .single (.start σ t .schedulerStartup hns rfl), ?_⟩
  constructor
  case phase => exact hA.phase_keep (by rfl) (fun _ _ => by rfl) (by rw [hpc]; rfl)
  case batches => exact hA.batches
  case ready => exact hA.ready
  case rings => exact hA.rings
  case live => exact hA.live
  case worker =>
    intro x w hx
    exact (hA.worker x w hx).congr rfl (fun _ hp => hp)
  case pc =>
    refine hA.pc_update (by rfl) ?_ ?_ (fun _ _ => Or.inl ⟨rfl, rfl, rfl⟩) (fun _ _ _ _ => by rfl)
    · simp [PcOk, Device.setPc, Device.log, Device.setScheduler]
    · exact fun x hx => (Device.isSome_setScheduler (by simp [hy]) _ x).trans hx
  case started =>
    intro x
    have hx := hA.started x
    simp only [Device.started, Device.setPc, Device.log, Device.setScheduler,
      Function.update_apply] at hx ⊢
    by_cases hxt : x = t
    · simp [hxt, Pc.starting]
    · simp only [hxt, if_false]
      exact hx
  case hist => exact congrArg (List.cons _) hA.hist
  case fault => exact hA.fault

/-- A yielding or ending worker wakes its scheduler. -/
theorem Abs.wakeSched (hA : Abs s σ) (hI : σ.Inv) (t p : Pid) (c : Pc)
    (hph : σ.phase t = .posted p) (hc : ∀ v, c.phase v = .leaving) (hok : PcOk s t c) :
    Simulates { s.setTask p .running with
      pc := Function.update s.pc t c
      hist := .wakeScheduler t p :: s.hist } σ := by
  obtain ⟨hwait, -⟩ := hA.waits_for hI t p (Or.inr hph)
  have hu := hI.posted t p hph
  have hns : (s.pc t).starting = false := by
    apply Pc.starting_of_phase (v := s.task t)
    rw [← hA.phase t, hph]
    simp
  have hcs : c.starting = false := Pc.starting_of_phase (v := s.task t) (by rw [hc]; simp)
  have hne : t ≠ p := by
    rintro rfl
    rw [hph] at hwait
    cases hwait
  refine ⟨_, .single (.wakeSched σ t p hph), ?_⟩
  constructor
  case phase =>
    intro x
    simp only [Device.setTask, Function.update_apply]
    by_cases hxt : x = t
    · rw [if_pos hxt, if_pos hxt, hc]
    · -- `p` may not have come to `schedule()` yet, and is woken all the same
      by_cases hxp : x = p
      · subst hxp
        rw [if_neg hxt, if_neg hxt, if_pos rfl, if_pos rfl]
        rw [hA.phase x] at hwait
        exact (Pc.phase_resumed hwait).symm
      · rw [if_neg hxt, if_neg hxt, if_neg hxp, if_neg hxp]
        exact hA.phase x
  case batches => exact hA.batches
  case ready => exact hA.ready
  case rings =>
    rw [linked_update_place σ _ _ t _ (by rw [hu]; rfl)]
    exact hA.rings
  case live => exact hA.live_place (by simp [hu]) (by simp)
  case worker =>
    intro x w' hx
    have hold := hA.worker x w' hx
    have hphase (q : Pid)
        (hq : Function.update (Function.update σ.phase p (.resumed t)) t .leaving q =
          .execWait x) : σ.phase q = .execWait x :=
      (of_update_eq (by simp) (of_update_eq (by simp) hq).2).2
    by_cases hxt : x = t
    · subst hxt
      exact .of_away (Or.inr (Function.update_self ..)) (hold.attached (by simp [hu]))
        fun q hq => hold.parent q (hphase q hq)
    · exact hold.congr (Function.update_of_ne hxt _ _) hphase
  case pc =>
    refine hA.pc_update (by rfl) ?_ (fun _ hx => hx) ?_ (fun _ _ _ _ => by rfl)
    · refine hok.frame ?_ rfl (fun hx => hx) rfl (fun _ _ _ => rfl)
      exact Function.update_of_ne hne _ _
    · intro x hx
      by_cases hxp : x = p
      · subst hxp
        exact Or.inr (Or.inr ⟨t, hwait⟩)
      · exact Or.inl ⟨Function.update_of_ne hxp _ _, rfl, rfl⟩
  case started => exact hA.started_update (by rfl) (fun _ => by rfl) (by rw [hns, hcs])
  case hist => exact congrArg (List.cons _) hA.hist
  case fault => exact hA.fault

/-- `ums_worker_destroy` at the end of a worker. -/
theorem Abs.destroy (hA : Abs s σ) (hI : σ.Inv) (t : Pid) (hpc : s.pc t = .destroy) :
    Simulates ((s.setWorker t none).ret t .exit .ok) σ := by
  have hph : σ.phase t = .leaving := by
    rw [hA.phase t, hpc]
    rfl
  -- nobody can find the worker any more: it is in no list and nobody executes it
  have hl := (hI.leaving t).mpr hph
  have hnone := hI.not_executed t (by simp [hl])
  refine ⟨_, .single (.destroy σ t hph), ?_⟩
  constructor
  case phase => exact hA.phase_update (by rfl) (fun _ _ => by rfl) (by rfl)
  case batches => exact hA.batches
  case ready => exact hA.ready
  case rings =>
    rw [linked_update_place σ _ _ t _ (by rw [hl]; rfl)]
    exact hA.rings
  case live => exact hA.live_update (by simp)
  case worker =>
    intro x w' hx
    obtain ⟨hxt, hx⟩ := of_update_eq (by simp) hx
    exact (hA.worker x w' hx).congr (Function.update_of_ne hxt _ _)
      fun p hp => (of_update_eq (by simp) hp).2
  case pc =>
    refine hA.pc_update (by rfl) (by trivial) (fun _ hx => hx) ?_ ?_
    · intro x hx
      exact Or.inl ⟨rfl, Function.update_of_ne hx _ _, rfl⟩
    · intro x y hx hy
      apply Function.update_of_ne
      rintro rfl
      exact (hnone x).1 hy
  case started => exact hA.started_update (by rfl) (fun _ => by rfl) (by rw [hpc]; rfl)
  case hist => exact congrArg (List.cons _) hA.hist
  case fault => exact hA.fault

-- The stores of a switch that leave the hand-over as it is.

/-- A store to a worker record: by the worker itself, or by the thread executing it. -/
theorem Abs.storeWorker (hA : Abs s σ) (hI : σ.Inv) (t u : Pid) (x x' : Worker) (c : Pc)
    (hx : s.worker u = some x) (hx' : WorkerOk σ u x')
    (hu : (u = t ∧ σ.phase t ≠ .parked) ∨ σ.phase t = .execPre u)
    (hstart : c.starting = (s.pc t).starting)
    (hphase : c.phase (s.task t) = (s.pc t).phase (s.task t))
    (hok : PcOk (s.setWorker u (some x')) t c) :
    Abs ((s.setWorker u (some x')).setPc t c) σ := by
  refine hA.silent t c rfl rfl rfl rfl rfl rfl (fun _ _ => rfl) (fun _ => rfl) hstart hphase hok
    ?_ ?_ ?_ ?_
  · intro y
    by_cases hyu : y = u
    · simp [hyu, Device.setPc, Device.setWorker, hx]
    · simp [Device.setPc, Device.setWorker, Function.update_of_ne hyu]
  · intro y w hy
    rcases update_cases hy with ⟨rfl, hw⟩ | ⟨-, hy⟩
    · exact Or.inr (Option.some.inj hw ▸ hx')
    · exact Or.inl hy
  · intro y hy
    by_cases hyu : y = u
    · subst hyu
      have hpre := hu.resolve_left (fun h => hy h.1)
      exact Or.inr (hI.parked_of_execPre hpre)
    · exact Or.inl (Function.update_of_ne hyu _ _)
  · intro y w hy hpre
    apply Function.update_of_ne
    rintro rfl
    -- a worker that is being woken by `y` does not run, and nobody else executes it
    rcases hu with ⟨rfl, hrun⟩ | hpre'
    · exact hrun (hI.parked_of_execPre hpre)
    · have hyt := (hI.execPre y w hpre).symm.trans (hI.execPre t w hpre')
      exact hy (Place.under.inj hyt)

theorem Abs.storeScheduler (hA : Abs s σ) (t p : Pid) (y : Scheduler) (c : Pc)
    (hp : (s.scheduler p).isSome) (hstart : c.starting = (s.pc t).starting)
    (hphase : c.phase (s.task t) = (s.pc t).phase (s.task t))
    (hok : PcOk (s.setScheduler p y) t c) : Abs ((s.setScheduler p y).setPc t c) σ := by
  refine hA.move t c rfl rfl rfl rfl rfl rfl (fun _ _ => rfl) ?_ hstart hphase hok rfl
  exact Device.isSome_setScheduler hp y

/-- `set_task_state(current, TASK_INTERRUPTIBLE)`. -/
theorem Abs.storeTask (hA : Abs s σ) (t : Pid) (c : Pc) (hstart : c.starting = (s.pc t).starting)
    (hphase : c.phase .interruptible = (s.pc t).phase (s.task t))
    (hok : PcOk (s.setTask t .interruptible) t c) :
    Abs ((s.setTask t .interruptible).setPc t c) σ := by
  refine hA.move t c rfl rfl rfl rfl rfl rfl ?_ (fun _ => rfl) hstart ?_ hok rfl
  · intro x hx
    exact Function.update_of_ne hx _ _
  · simp only [Device.setPc, Device.setTask, Function.update_self]
    exact hphase

-- The steps that only add to the history.

theorem Abs.log (hA : Abs s σ) (o : Obs Pid ListId Event) :
    Abs (s.log o) { σ with hist := o :: σ.hist } := by
  obtain ⟨h1, h2, h3, h4, h5, h6, h7, h8, h9, h10⟩ := hA
  refine ⟨h1, h2, h3, h4, h5, ?_, h7, h8, congrArg (List.cons o) h9, h10⟩
  intro x w hx
  exact (h6 x w hx).congr rfl (fun _ hp => hp)

/-- Returning from a call that suspended nobody. -/
theorem Abs.ret (hA : Abs s σ) (t : Pid) (c : Call Pid) (r : Result)
    (hr : r ≠ .ok ∨ c.suspends = false) (hns : (s.pc t).starting = false)
    (hphase : (s.pc t).phase (s.task t) = .active) : Simulates (s.ret t c r) σ := by
  refine ⟨_, .single (.ret σ t c r hr), ?_⟩
  exact (hA.log _).setPc t .user hns.symm hphase.symm trivial

theorem modifyContext_worker {p : Pid} {w : Worker} (f : UmsContext → UmsContext)
    (h : s.worker p = some w) :
    s.modifyContext (.worker p) f = s.setWorker p (some { w with context := f w.context }) := by
  simp only [Device.modifyContext, h]

theorem modifyContext_scheduler {p : Pid} {c : Scheduler} (f : UmsContext → UmsContext)
    (h : s.scheduler p = some c) :
    s.modifyContext (.scheduler p) f = s.setScheduler p { c with context := f c.context } := by
  simp only [Device.modifyContext, h]

theorem suffix_prepareSuspendContext {op : SwitchOp} {ops : List SwitchOp}
    (h : op :: ops <:+ prepareSuspendContext) :
    (op = .setIdle ∧ ops = [.setInterruptible]) ∨ (op = .setInterruptible ∧ ops = []) := by
  simpa [prepareSuspendContext, List.suffix_cons_iff] using h

theorem suffix_wakeUpContext {op : SwitchOp} {ops : List SwitchOp}
    (h : op :: ops <:+ wakeUpContext) :
    (op = .setRunning ∧ ops = [.wakeUp]) ∨ (op = .wakeUp ∧ ops = []) := by
  simpa [wakeUpContext, List.suffix_cons_iff] using h

theorem suffix_prepareSwitchContext {op : SwitchOp} {ops : List SwitchOp}
    (h : op :: ops <:+ prepareSwitchContext) :
    (op = .assignParent ∧ ops = [.incSwitches, .setIdle, .setInterruptible, .setRunning, .wakeUp]) ∨
    (op = .incSwitches ∧ ops = [.setIdle, .setInterruptible, .setRunning, .wakeUp]) ∨
    (op = .setIdle ∧ ops = [.setInterruptible, .setRunning, .wakeUp]) ∨
    (op = .setInterruptible ∧ ops = [.setRunning, .wakeUp]) ∨
    (op = .setRunning ∧ ops = [.wakeUp]) ∨ (op = .wakeUp ∧ ops = []) := by
  simpa [prepareSwitchContext, prepareSuspendContext, wakeUpContext, List.suffix_cons_iff] using h

end Steps

end LinuxUms
