import LinuxUms.ApplicationRuns
import LinuxUms.DeviceLists

/-! The order in which the programs execute their workers. The completion list is shared, and a
scheduler takes all that is in it; what each scheduler executes are the contexts it has taken, in
the order in which they were put in the list. -/
namespace LinuxUms

open KernelList Handoff

/-- `Q` says which scheduler took which context, in the order of the completion list; `r p` is what
is behind the handle of scheduler `p`, and `ms` is what is in the completion list. -/
structure AppOrder (P : Program) (s : App) (q : Pid → Option (List ℕ)) (Q : List (Pid × Pid))
    (r : Pid → List Pid) (ms : List Pid) : Prop where
  queue : s.dev.Linked (.head P.compList) ms
  queued : queuedTo P.compList s.dev.hist = Q.map Prod.snd ++ ms
  handle : ∀ p c b, s.dev.batches p = [c :: b] → s.dev.Linked (.context c) (r p)
  taken : ∀ p, ((Q.filter (·.1 = p)).map Prod.snd).map some = s.dispatched q p (r p)
  takers : ∀ x ∈ Q, x.1 ∈ P.schedulers

/-- No execution is logged inside a call. -/
theorem Device.Move.execsBy_eq {s s' : Device} {t : Pid} {c : Pc} (h : s.Move t c s') (p : Pid) :
    execsBy p s'.hist = execsBy p s.hist := by
  cases h with
  | switching k op ops =>
    have hb := beside_switchOp s (k.contexts t).1 (k.contexts t).2 op
    show execsBy p (if op = .wakeUp then _ else _) = _
    rw [hb.hist]
    split
    · exact (sameFor_wakes k t p s.hist).1
    · rfl
  | _ => rfl

/-- A call that is back in user code has returned a result. -/
theorem Device.Move.returned {s s' : Device} {t : Pid} {c : Pc} (h : s.Move t c s')
    (hpc : s'.pc t = .user) : ∃ r, s'.returned t = some r := by
  cases h with
  | awake | wake | startReturn | dqInterrupted | dqReturn | next | close | exitOrphan | destroy
  | evInterrupted | evReturn => exact ⟨_, Device.returned_ret _ t _ _⟩
  | switching k op ops =>
    exact absurd ((Function.update_self t _ _).symm.trans hpc) (switching_busy k ops)
  | dqTake => cases (Function.update_self t _ s.pc).symm.trans hpc
  | _ =>
    rw [Device.setPc_self] at hpc
    cases hpc

theorem resume_executes (P : Program) (s : App) (t : Pid) (r : Result) :
    ((s.resume P t r (s.code t)).code t).executes = false := by
  have hgo (s : App) {c : Stmt} (hc : c.executes = false) :
      ((s.goto t c).code t).executes = false := by
    rw [goto_code]
    exact hc
  generalize hcode : s.code t = c
  cases c with
  | enterSchedulingMode | enterWorker =>
    apply hgo
    split <;> rfl
  | dequeueEvent | dequeueItems =>
    cases r with
    | ok | enomem | esrch => exact hgo _ rfl
    | erestartsys =>
      show (s.code t).executes = false
      rw [hcode]
      rfl
  | nextItem =>
    apply hgo
    rw [apply_ite Stmt.executes]
    exact ite_self _
  | execute n => exact hgo _ rfl
  | func k => cases k <;> exact hgo _ rfl
  | schedEntryProc | addNode | firstEntry | freeNode | done =>
    show (s.code t).executes = false
    rw [hcode]
    rfl

section Step

variable {P : Program} {s s' : App} {q q' : Pid → Option (List ℕ)} {Q : List (Pid × Pid)}
  {r : Pid → List Pid} {ms : List Pid} {t : Pid} {d : Device}

theorem held_of_busy {v : View} (hpc : v.pc ≠ .user) (c : Stmt) : v.held c = [] := by
  cases c with
  | execute n => exact if_neg hpc
  | _ => rfl

/-- After a step of the kernel no node waits to be executed. -/
theorem held_kernel (hm : s.dev.Move t (s.dev.pc t) d) :
    (((s.copyToUser t).enter P t d).view q t).held
      (((s.copyToUser t).enter P t d).code t) = [] := by
  by_cases hpc : d.pc t = .user
  · obtain ⟨x, hx⟩ := hm.returned hpc
    rw [App.enter, hx]
    exact held_of_executes _ (resume_executes P _ t x)
  · apply held_of_busy
    show ((s.copyToUser t).enter P t d).dev.pc t ≠ .user
    rwa [App.enter_dev]

/-- What the calling thread has executed and is going to, by the batch it is draining then. -/
theorem dispatched_kernel (hm : s.dev.Move t (s.dev.pc t) d) (x : List Pid) :
    ((s.copyToUser t).enter P t d).dispatched q t x = (execsBy t s.dev.hist).map some ++
      match d.batches t with
      | [] => (s.view q t).rq.getD []
      | b :: _ => (b.reverse ++ x).map some := by
  have hk := (App.kept_copyToUser s t).trans (App.kept_enter P _ t d)
  have hdev := App.enter_dev P (s.copyToUser t) t d
  have hrq : (((s.copyToUser t).enter P t d).view q t).rq = (s.view q t).rq := by
    show (q t).map _ = (q t).map _
    rw [hk.nodes]
  have hb : (((s.copyToUser t).enter P t d).view q t).batches = d.batches t := by
    show ((s.copyToUser t).enter P t d).dev.batches t = d.batches t
    rw [hdev]
  rw [App.dispatched, hdev, hm.execsBy_eq, View.pending, hb, held_kernel hm, hrq]
  cases d.batches t <;> rfl

/-- What it had executed and was going to, inside the call. -/
theorem dispatched_busy (hpc : s.dev.pc t ≠ .user) (x : List Pid) :
    s.dispatched q t x = (execsBy t s.dev.hist).map some ++
      match s.dev.batches t with
      | [] => (s.view q t).rq.getD []
      | b :: _ => (b.reverse ++ x).map some := by
  rw [App.dispatched, View.pending, held_of_busy hpc]
  show _ ++ (match s.dev.batches t with | [] => _ | b :: _ => _) = _
  cases s.dev.batches t <;> rfl

/-- What a step of `t` does to the completion list `ms` and to what is behind the handles, and what
`t` has executed and is going to execute then. -/
inductive Flow (s : App) (q : Pid → Option (List ℕ)) (t : Pid) (s' : App)
    (q' : Pid → Option (List ℕ)) (r : Pid → List Pid) (ms : List Pid) :
    (Pid → List Pid) → List Pid → Prop where
  | keep (hpc : ∀ c, s.dev.pc t = .nextContext c → s'.dev.batches t = [])
      (h : s'.dispatched q' t (r t) = s.dispatched q t (r t)) : Flow s q t s' q' r ms r ms
  | add (hpc : (s.dev.pc t).adds = true)
      (h : s'.dispatched q' t (r t) = s.dispatched q t (r t)) :
      Flow s q t s' q' r ms r (ms ++ [t])
  | take (c : Pid) (cs : List Pid) (l : ListId) (hpc : s.dev.pc t = .dqTest l) (hms : ms = c :: cs)
      (h : s'.dispatched q' t cs = s.dispatched q t (r t) ++ ms.map some) :
      Flow s q t s' q' r ms (Function.update r t cs) []
  | next (d : Pid) (ds : List Pid) (c : Pid) (hpc : s.dev.pc t = .nextContext c)
      (hr : r t = d :: ds) (h : s'.dispatched q' t ds = s.dispatched q t (r t)) :
      Flow s q t s' q' r ms (Function.update r t ds) ms

theorem filter_taken (t p : Pid) (cs : List Pid) :
    ((cs.map (fun c => (t, c))).filter (·.1 = p)).map Prod.snd = if p = t then cs else [] := by
  split
  · rename_i hp
    rw [List.filter_eq_self.mpr, List.map_map]
    · exact List.map_id cs
    · intro x hx
      obtain ⟨c, -, rfl⟩ := List.mem_map.mp hx
      simp [hp]
  · rename_i hp
    rw [List.filter_eq_nil_iff.mpr]
    · rfl
    · intro x hx
      obtain ⟨c, -, rfl⟩ := List.mem_map.mp hx
      simp [Ne.symm hp]

/-- A step of `t` that takes the contexts `cs` from the completion list, or none. -/
theorem AppOrder.of_own (hO : AppOrder P s q Q r ms) (hs : AppStep P s q t s' q')
    {σ : Handoff Pid ListId Event} (hA : Abs s.dev σ) (hσ : σ.Inv) (hl : s.dev.Relink σ t s'.dev)
    {x ms' : List Pid} (cs : List Pid) (hqueue : s'.dev.Linked (.head P.compList) ms')
    (hqueued : queuedTo P.compList s'.dev.hist = Q.map Prod.snd ++ cs ++ ms')
    (hhandle : ∀ c b, s'.dev.batches t = [c :: b] → s'.dev.Linked (.context c) x)
    (ht : cs ≠ [] → t ∈ P.schedulers)
    (hown : s'.dispatched q' t x = s.dispatched q t (r t) ++ cs.map some) :
    AppOrder P s' q' (Q ++ cs.map (fun c => (t, c))) (Function.update r t x) ms' where
  queue := hqueue
  queued := by
    have hsnd : (cs.map (fun c => (t, c))).map Prod.snd = cs := by
      rw [List.map_map]
      exact List.map_id cs
    rw [List.map_append, hsnd, hqueued]
  handle p c b hp := by
    by_cases hpt : p = t
    · rw [hpt, Function.update_self]
      exact hhandle c b (hpt ▸ hp)
    · rw [hs.dev.batches p hpt] at hp
      rw [Function.update_of_ne hpt]
      exact hl.handle hA hσ (Or.inl hpt) (by rw [hp]; simp [IsHandle]) (hO.handle p c b hp)
  taken p := by
    rw [List.filter_append, List.map_append, List.map_append, hO.taken p, filter_taken]
    by_cases hpt : p = t
    · rw [if_pos hpt, hpt, Function.update_self, hown]
    · rw [if_neg hpt, Function.update_of_ne hpt, hs.dispatched_other hpt]
      exact List.append_nil _
  takers y hy := by
    rcases List.mem_append.mp hy with hy | hy
    · exact hO.takers y hy
    · obtain ⟨c, hc, rfl⟩ := List.mem_map.mp hy
      exact ht (List.ne_nil_of_mem hc)

/-- A step that takes nothing from the completion list. -/
theorem AppOrder.of_none (hO : AppOrder P s q Q r ms) (hs : AppStep P s q t s' q')
    {σ : Handoff Pid ListId Event} (hA : Abs s.dev σ) (hσ : σ.Inv) (hl : s.dev.Relink σ t s'.dev)
    {x ms' : List Pid} (hqueue : s'.dev.Linked (.head P.compList) ms')
    (hqueued : queuedTo P.compList s'.dev.hist = Q.map Prod.snd ++ ms')
    (hhandle : ∀ c b, s'.dev.batches t = [c :: b] → s'.dev.Linked (.context c) x)
    (hown : s'.dispatched q' t x = s.dispatched q t (r t)) :
    AppOrder P s' q' Q (Function.update r t x) ms' := by
  have h := hO.of_own hs hA hσ hl [] hqueue (by rw [hqueued, List.append_nil]) hhandle
    (fun h => absurd rfl h) (by rw [hown]; exact (List.append_nil _).symm)
  rwa [List.map_nil, List.append_nil] at h

/-- A step that leaves the batches of its own thread as they are. -/
theorem AppOrder.of_idle (hO : AppOrder P s q Q r ms) (hs : AppStep P s q t s' q')
    {σ : Handoff Pid ListId Event} (hA : Abs s.dev σ) (hσ : σ.Inv) (hl : s.dev.Relink σ t s'.dev)
    {ms' : List Pid} (hqueue : s'.dev.Linked (.head P.compList) ms')
    (hqueued : queuedTo P.compList s'.dev.hist = Q.map Prod.snd ++ ms')
    (hb : s'.dev.batches = s.dev.batches)
    (hown : s'.dispatched q' t (r t) = s.dispatched q t (r t)) : AppOrder P s' q' Q r ms' := by
  have h := hO.of_none hs hA hσ hl hqueue hqueued (fun c b hc => ?_) hown
  · rwa [Function.update_eq_self] at h
  · rw [hb] at hc
    exact hl.handle hA hσ (Or.inr hb) (by rw [hc]; simp [IsHandle]) (hO.handle t c b hc)

/-- Every worker of the program is attached to the one completion list. -/
theorem AppInv.complist_eq (hI : AppInv P s q) {l : ListId}
    (h : (s.dev.worker t).map Worker.complist = some (some l)) : l = P.compList := by
  replace h : (s.view q t).complist = some (some l) := h
  by_cases ht : t ∈ P.schedulers
  · rw [(hI.sched ht).1] at h
    cases h
  have hat := (hI.work ht).2
  have heq (h' : (s.view q t).complist = some (some P.compList)) : l = P.compList := by
    rw [h', Option.some.injEq, Option.some.injEq] at h
    exact h.symm
  generalize s.code t = c at hat
  cases c with
  | enterWorker =>
    rcases hat with ⟨-, hn⟩ | ⟨-, hn⟩ | ⟨hn, -⟩
    · cases hn.symm.trans h
    · cases hn.symm.trans h
    · exact heq hn
  | func k => cases k <;> exact heq hat.1
  | done => cases hat.2.symm.trans h
  | _ => exact hat.elim

/-- A thread that takes the completion list is a scheduler without a batch. -/
theorem AppInv.of_dqTest (hI : AppInv P s q) {l : ListId} (hpc : s.dev.pc t = .dqTest l) :
    t ∈ P.schedulers ∧ l = P.compList ∧ s.dev.batches t = [] ∧ (s.view q t).rq = some [] := by
  have hc : s.code t = .dequeueItems := hI.from hpc
  by_cases ht : t ∈ P.schedulers
  · have hat := (hI.sched ht).2
    rw [hc] at hat
    obtain ⟨-, -, hrq, ⟨hx, hb⟩ | ⟨hx, -⟩⟩ := hat
    · refine ⟨ht, ?_, hb, hrq⟩
      rw [show (s.view q t).pc = .dqTest l from hpc] at hx
      simpa using hx
    · cases hx.symm.trans hpc
  · have hat := (hI.work ht).2
    rw [hc] at hat
    exact hat.elim

/-- A thread that asks for the next context is a scheduler with one batch. -/
theorem AppInv.of_nextContext (hI : AppInv P s q) {c : Pid} (hpc : s.dev.pc t = .nextContext c) :
    ∃ b, s.dev.batches t = [c :: b] ∧ (s.view q t).rq = some ((c :: b).reverse.map some) := by
  have hc : s.code t = .nextItem := hI.from hpc
  by_cases ht : t ∈ P.schedulers
  · have hat := (hI.sched ht).2
    rw [hc] at hat
    obtain ⟨-, -, hx, b, hb, hrq⟩ := hat
    rw [show (s.view q t).pc = .nextContext c from hpc] at hx
    obtain rfl : c = (s.view q t).context := by simpa using hx
    exact ⟨b, hb, hrq⟩
  · have hat := (hI.work ht).2
    rw [hc] at hat
    exact hat.elim

theorem AppOrder.kernel (hO : AppOrder P s q Q r ms) (hI : AppInv P s q)
    (hpc : s.dev.pc t ≠ .user) (h : (s.copyToUser t).ioctl P t (.run t) = some s') :
    ∃ Q' r' ms', AppOrder P s' q Q' r' ms' ∧ Flow s q t s' q r ms r' ms' := by
  have hs := hI.kernel hpc h
  rw [App.ioctl, App.copyToUser_dev] at h
  obtain ⟨d, hrun, rfl⟩ := Option.map_eq_some_iff.mp h
  have hdev := App.enter_dev P (s.copyToUser t) t d
  obtain ⟨σ, hσ, -, hA⟩ := reachable_handoff hI.dev
  have hm : s.dev.Move t (s.dev.pc t) d := by
    apply Device.move_of_run hrun
    rw [← hdev]
    exact Device.fault_of_reachable hs.inv.dev
  have hl := Device.relink_of_move hA hσ hm
  have hown := dispatched_kernel (P := P) (q := q) hm
  have hold := dispatched_busy (q := q) hpc
  rw [← hdev] at hl
  generalize (s.copyToUser t).enter P t d = s' at hs hdev hl hown
  subst hdev
  -- a thread whose batches stay goes on with what it has
  have hsame (hb : s'.dev.batches = s.dev.batches) :
      s'.dispatched q t (r t) = s.dispatched q t (r t) := by
    rw [hown, hold, hb]
  cases hl' : hl with
  | keep hno hf hh hb =>
    refine ⟨Q, r, ms, hO.of_idle hs hA hσ hl ?_ ((hh _).trans hO.queued) hb (hsame hb),
      .keep (fun c hc => absurd hc (hno c)) (hsame hb)⟩
    exact Device.linked_of_family hf (Device.linked_head hA hO.queue)
  | add l hadd hout hlist hf hh hb =>
    obtain rfl := hI.complist_eq hlist
    refine ⟨Q, r, ms ++ [t], hO.of_idle hs hA hσ hl ?_ ?_ hb (hsame hb), .add hadd (hsame hb)⟩
    · apply Device.linked_of_family hf
      rw [Function.update_self, hO.queue.queue_eq hA, List.map_append]
      rfl
    · rw [hh, queuedTo, if_pos rfl, hO.queued, List.append_assoc]
  | take l c cs hat hq hf hh hb =>
    obtain ⟨ht, rfl, hnone, hrq⟩ := hI.of_dqTest hat
    have hms : ms = c :: cs := (hO.queue.queue_eq hA).trans hq
    have hbt : s'.dev.batches t = [[c]] := by rw [hb, Function.update_self, hnone]
    have hnew : s'.dispatched q t cs = s.dispatched q t (r t) ++ ms.map some := by
      rw [hown, hold, hbt, hnone, hrq, hms, List.append_assoc]
      rfl
    refine ⟨_, _, [], hO.of_own hs hA hσ hl ms ?_ ?_ ?_ (fun _ => ht) hnew,
      .take c cs _ hat hms hnew⟩
    · apply Device.linked_of_family hf
      rw [Function.update_of_ne (by simp), Function.update_self]
      rfl
    · rw [hh, hO.queued, List.append_nil]
    · intro x b hx
      rw [hbt, List.cons.injEq, List.cons.injEq] at hx
      rw [← hx.1.1]
      exact Device.linked_of_family hf (Function.update_self _ _ _)
  | next c e ds hat hr hf hh hb =>
    obtain ⟨b, hbt, hrq⟩ := hI.of_nextContext hat
    have hbt' : s'.dev.batches t = [e :: c :: b] := by
      rw [hb, Function.update_self, hbt, handNext_single]
    have hhanded : σ.place c = .handed t := by
      apply hσ.handed_of_handle
      rw [hA.batches, hbt]
      simp [IsHandle]
    have hrt : r t = e :: ds := ((hO.handle t c b hbt).rest_eq hA hhanded).trans hr
    have hnew : s'.dispatched q t ds = s.dispatched q t (r t) := by
      rw [hown, hold, hbt, hbt', hrt]
      show _ ++ ((e :: c :: b).reverse ++ ds).map some = _ ++ ((c :: b).reverse ++ e :: ds).map some
      rw [List.reverse_cons, List.append_assoc]
      rfl
    refine ⟨Q, _, ms, hO.of_none hs hA hσ hl ?_ ?_ ?_ hnew, .next e ds c hat hrt hnew⟩
    · apply Device.linked_of_family hf
      rw [Function.update_of_ne (by simp), Function.update_of_ne (by simp)]
      exact Device.linked_head hA hO.queue
    · rw [hh]
      exact hO.queued
    · intro x b' hx
      rw [hbt', List.cons.injEq, List.cons.injEq] at hx
      rw [← hx.1.1]
      exact Device.linked_of_family hf (Function.update_self _ _ _)
  | close c hat hr hf hh hb =>
    obtain ⟨b, hbt, hrq⟩ := hI.of_nextContext hat
    have hbt' : s'.dev.batches t = [] := by
      rw [hb, Function.update_self, hbt, closeBatch_single]
    have hhanded : σ.place c = .handed t := by
      apply hσ.handed_of_handle
      rw [hA.batches, hbt]
      simp [IsHandle]
    have hrt : r t = [] := ((hO.handle t c b hbt).rest_eq hA hhanded).trans hr
    have hnew : s'.dispatched q t (r t) = s.dispatched q t (r t) := by
      rw [hown, hold, hbt, hbt', hrt, hrq]
      show _ ++ (c :: b).reverse.map some = _ ++ ((c :: b).reverse ++ []).map some
      rw [List.append_nil]
    have hOrd := hO.of_none hs hA hσ hl
      (Device.linked_of_family hf (Device.linked_head hA hO.queue)) (by rw [hh]; exact hO.queued)
      (fun x b' hx => by cases hbt'.symm.trans hx) hnew
    rw [Function.update_eq_self] at hOrd
    exact ⟨Q, r, ms, hOrd, .keep (fun _ _ => hbt') hnew⟩

/-- A statement leaves the device alone or makes one call. -/
theorem App.user_dev {env : Env} {c : Stmt} (h : s.user P t env c = some s') :
    s'.dev = s.dev ∨ ∃ a, (∀ u, a ≠ .run u ∧ a ≠ .signal u) ∧ s.dev.step a = some s'.dev := by
  have hioctl {s₁ : App} (a : DeviceAct) (ha : ∀ u, a ≠ .run u ∧ a ≠ .signal u)
      (hs₁ : s₁.dev = s.dev) (h : s₁.ioctl P t a = some s') :
      s'.dev = s.dev ∨ ∃ a, (∀ u, a ≠ .run u ∧ a ≠ .signal u) ∧ s.dev.step a = some s'.dev := by
    rw [App.ioctl, hs₁] at h
    obtain ⟨d, hd, rfl⟩ := Option.map_eq_some_iff.mp h
    rw [App.enter_dev]
    exact Or.inr ⟨a, ha, hd⟩
  cases c with
  | enterSchedulingMode =>
    refine hioctl _ (by simp) ?_ h
    split <;> rfl
  | dequeueEvent => exact hioctl (.dqevent t) (by simp) rfl h
  | dequeueItems => exact hioctl (.dqcontext t P.compList) (by simp) rfl h
  | nextItem => exact hioctl (.nextContext t _) (by simp) rfl h
  | enterWorker => exact hioctl (.enterWorker t _ _ _) (by simp) rfl h
  | func k =>
    cases k with
    | zero => exact hioctl (.exit t) (by simp) rfl h
    | succ k => exact hioctl (.yield t _) (by simp) rfl h
  | execute n =>
    rw [App.user] at h
    split at h
    · exact hioctl (.exec t _) (by simp) rfl h
    · cases h
      exact Or.inl rfl
  | schedEntryProc =>
    cases h
    refine Or.inl ?_
    show (if _ then s.initRq t else s).dev = s.dev
    split <;> rfl
  | addNode =>
    cases h
    refine Or.inl ?_
    rw [App.addNode]
    split
    · split <;> rfl
    · rfl
  | firstEntry =>
    cases h
    refine Or.inl ?_
    rw [App.firstEntry]
    split
    · split <;> rfl
    · rfl
  | freeNode n =>
    cases h
    refine Or.inl ?_
    rw [App.freeNode]
    split <;> rfl
  | done => cases h

theorem AppOrder.user (hO : AppOrder P s q Q r ms) (hI : AppInv P s q) {env : Env} {c : Stmt}
    (hpc : s.dev.pc t = .user) (h : s.user P t env c = some s') (hs : UserStep P s q t s' q') :
    AppOrder P s' q' Q r ms := by
  obtain ⟨σ, hσ, -, hA⟩ := reachable_handoff hI.dev
  obtain ⟨hf, hh, hb⟩ : RingFamily s'.dev.heap (linked σ) (fun _ => none) ∧
      (∀ l, queuedTo l s'.dev.hist = queuedTo l s.dev.hist) ∧
      s'.dev.batches = s.dev.batches := by
    rcases App.user_dev h with hdev | ⟨a, ha, hstep⟩
    · rw [hdev]
      exact ⟨hA.rings, fun _ => rfl, rfl⟩
    · exact Device.call_keeps_lists hA hσ (Device.step_call ha hstep).2
  refine hO.of_idle hs.toAppStep hA hσ (.keep (by simp [hpc]) hf hh hb) ?_
    ((hh _).trans hO.queued) hb (hs.own (r t))
  exact Device.linked_of_family hf (Device.linked_head hA hO.queue)

theorem AppOrder.signal (hO : AppOrder P s q Q r ms)
    (h : (s.dev.step (.signal t)).map s.setDev = some s') : AppOrder P s' q Q r ms := by
  obtain ⟨d, hs, rfl⟩ := Option.map_eq_some_iff.mp h
  obtain ⟨-, rfl⟩ := Device.step_signal hs
  exact ⟨hO.queue, hO.queued, hO.handle, hO.taken, hO.takers⟩

end Step

end LinuxUms
