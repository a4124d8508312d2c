import LinuxUms.Procfs

/-! Where the module's entries are. While a device is open, the `dirs` members of its schedulers
and workers point to entries of the tree that stand where their names say, so that every removal
finds what it removes and takes nothing else along. -/
namespace LinuxUms

open ProcTree

namespace Procfs

variable {P : Procfs}

/-- The tree without `e` and what is below it. -/
def without (P : Procfs) (e : ProcPath) : Procfs := { P with tree := P.tree.remove e }

/-- Serial numbers up to `n` are used up. -/
def skip (P : Procfs) (n : ℕ) : Procfs := { P with tree := ⟨P.tree.entries, n⟩ }

theorem procRemove_entry (site : RemoveSite) (e : ProcPath) (he : e ∈ P.tree.entries) :
    P.procRemove site (.entry e) = P.without e := by
  simp [procRemove, without, he]

theorem mem_withEntry (e : ProcPath) : e ∈ (P.withEntry e).tree.entries := List.mem_cons_self

/-- An entry that is created and removed again costs a serial number. -/
theorem procRemove_skip_new (ok : P.tree.Ok) (d : ProcPath) (n : ProcName) (v : Option Pid) (m : ℕ)
    (site : RemoveSite) :
    ((P.withEntry (P.newEntry d n v)).skip m).procRemove site (.entry (P.newEntry d n v)) =
      P.skip m := by
  rw [procRemove_entry _ _ List.mem_cons_self]
  simp only [withEntry, without, newEntry, skip]
  rw [ok.remove_cons _ rfl]

theorem procRemove_new (ok : P.tree.Ok) (d : ProcPath) (n : ProcName) (v : Option Pid)
    (site : RemoveSite) :
    (P.withEntry (P.newEntry d n v)).procRemove site (.entry (P.newEntry d n v)) =
      P.skip (P.tree.next + 1) :=
  procRemove_skip_new ok d n v (P.tree.next + 1) site

theorem withEntry_ok (ok : P.tree.Ok) (d : ProcPath) (n : ProcName) (v : Option Pid)
    (hd : d = [] ∨ d ∈ P.tree.entries) (hname : P.tree.hasName d n = false) :
    (P.withEntry (P.newEntry d n v)).tree.Ok :=
  ok.cons hd hname

theorem umsWorkerProcRegister_cases (ok : P.tree.Ok) (hd : P.dirs.workersDir ∈ P.tree.entries)
    (t : Pid) (f : WorkerRegister) :
    (∃ n, P.tree.next ≤ n ∧ P.umsWorkerProcRegister t f = (false, P.skip n)) ∨
    ∃ dir Q info, dir = P.newEntry P.dirs.workersDir (.pid t) none ∧ Q = P.withEntry dir ∧
      info = Q.newEntry dir .info none ∧ (Q.withEntry info).tree.Ok ∧
      P.tree.hasName P.dirs.workersDir (.pid t) = false ∧
      P.umsWorkerProcRegister t f = (true, { Q.withEntry info with
        worker := Function.update P.worker t (some ⟨dir, info, .junk⟩) }) := by
  unfold umsWorkerProcRegister
  rcases P.procCreate_cases P.dirs.workersDir (.pid t) none f.workerDir with
    ⟨h, -⟩ | ⟨h, -, hname⟩
  · exact Or.inl ⟨P.tree.next, le_rfl, by rw [h]; rfl⟩
  · have ok₁ := withEntry_ok ok _ _ none (Or.inr hd) hname
    have hgone := procRemove_new ok P.dirs.workersDir (.pid t) none
    simp only [h]
    generalize hdir : P.newEntry P.dirs.workersDir (.pid t) none = dir at *
    by_cases hpath : f.workerDirPath = false
    · refine Or.inl ⟨P.tree.next + 1, Nat.le_succ _, ?_⟩
      rw [if_pos hpath, hgone]
    · rw [if_neg hpath]
      rcases (P.withEntry dir).procCreate_cases dir .info none f.workerInfoDir with
        ⟨h, -⟩ | ⟨h, -, hinfo⟩
      · refine Or.inl ⟨P.tree.next + 1, Nat.le_succ _, ?_⟩
        simp only [h, hgone]
      · refine Or.inr ⟨dir, _, _, rfl, rfl, rfl,
          withEntry_ok ok₁ _ _ none (Or.inr (mem_withEntry dir)) hinfo, hname, ?_⟩
        simp only [h]
        rfl

theorem umsSchedulerProcRegister_cases (ok : P.tree.Ok) (hd : P.dirs.schedDir ∈ P.tree.entries)
    (t : Pid) (f : SchedulerRegister) :
    (∃ n, P.tree.next ≤ n ∧ P.umsSchedulerProcRegister t f = (false, P.skip n)) ∨
    ∃ dir Q info R workers, dir = P.newEntry P.dirs.schedDir (.pid t) none ∧
      Q = P.withEntry dir ∧ info = Q.newEntry dir .info none ∧ R = Q.withEntry info ∧
      workers = R.newEntry dir .workers none ∧ (R.withEntry workers).tree.Ok ∧
      P.tree.hasName P.dirs.schedDir (.pid t) = false ∧
      P.umsSchedulerProcRegister t f = (true, { R.withEntry workers with
        scheduler := Function.update P.scheduler t (some ⟨dir, info, workers, 0, 0⟩) }) := by
  unfold umsSchedulerProcRegister
  rcases P.procCreate_cases P.dirs.schedDir (.pid t) none f.schedulerDir with
    ⟨h, -⟩ | ⟨h, -, hname⟩
  · exact Or.inl ⟨P.tree.next, le_rfl, by rw [h]; rfl⟩
  · have ok₁ := withEntry_ok ok _ _ none (Or.inr hd) hname
    have hgone := procRemove_new ok P.dirs.schedDir (.pid t) none
    have hgone' := procRemove_skip_new ok P.dirs.schedDir (.pid t) none
    simp only [h]
    generalize hdir : P.newEntry P.dirs.schedDir (.pid t) none = dir at *
    rcases (P.withEntry dir).procCreate_cases dir .info none f.schedulerInfoDir with
      ⟨h, -⟩ | ⟨h, -, hinfo⟩
    · refine Or.inl ⟨P.tree.next + 1, Nat.le_succ _, ?_⟩
      simp only [h, hgone]
    · have ok₂ := withEntry_ok ok₁ _ _ none (Or.inr (mem_withEntry dir)) hinfo
      have hgone₂ := procRemove_new ok₁ dir .info none
      simp only [h]
      generalize hnew : (P.withEntry dir).newEntry dir .info none = info at *
      rcases ((P.withEntry dir).withEntry info).procCreate_cases dir .workers none f.workersDir
        with ⟨h, -⟩ | ⟨h, -, hworkers⟩
      · refine Or.inl ⟨P.tree.next + 2, Nat.le_add_right _ 2, ?_⟩
        simp only [h, hgone₂, hgone']
        rfl
      · refine Or.inr ⟨dir, _, info, _, _, rfl, rfl, hnew.symm, rfl, rfl,
          withEntry_ok ok₂ _ _ none (Or.inr (List.mem_cons_of_mem _ (mem_withEntry dir))) hworkers,
          hname, ?_⟩
        simp only [h]
        rfl

/-- An open that fails leaves the tree as it was. -/
theorem umsProcDirsInit_cases (ok : P.tree.Ok) (pid : Pid) (f : DirsInit) :
    (∃ n, P.tree.next ≤ n ∧ P.umsProcDirsInit pid f = (false, P.skip n)) ∨
    ∃ dir Q sched R workers, dir = P.newEntry [] (.pid pid) none ∧ Q = P.withEntry dir ∧
      sched = Q.newEntry dir .schedulers none ∧ R = Q.withEntry sched ∧
      workers = R.newEntry dir .workers none ∧ (R.withEntry workers).tree.Ok ∧
      P.umsProcDirsInit pid f =
        (true, { R.withEntry workers with dirs := ⟨dir, sched, workers⟩ }) := by
  unfold umsProcDirsInit
  rcases P.procCreate_cases [] (.pid pid) none f.pidDir with ⟨h, -⟩ | ⟨h, -, hname⟩
  · exact Or.inl ⟨P.tree.next, le_rfl, by rw [h]; rfl⟩
  · have ok₁ := withEntry_ok ok _ _ none (Or.inl rfl) hname
    have hgone := procRemove_new ok [] (.pid pid) none
    have hgone' := procRemove_skip_new ok [] (.pid pid) none
    simp only [h]
    generalize hdir : P.newEntry [] (.pid pid) none = dir at *
    by_cases hpath : f.pidDirPath = false
    · -- each error path removes what was made so far, in the reverse order
      refine Or.inl ⟨P.tree.next + 1, Nat.le_succ _, ?_⟩
      rw [if_pos hpath, hgone]
    · rw [if_neg hpath]
      rcases (P.withEntry dir).procCreate_cases dir .schedulers none f.schedDir with
        ⟨h, -⟩ | ⟨h, -, hsched⟩
      · refine Or.inl ⟨P.tree.next + 1, Nat.le_succ _, ?_⟩
        simp only [h, hgone]
      · have ok₂ := withEntry_ok ok₁ _ _ none (Or.inr (mem_withEntry dir)) hsched
        have hgone₂ := procRemove_new ok₁ dir .schedulers none
        have hgone₂' := procRemove_skip_new ok₁ dir .schedulers none
        simp only [h]
        generalize hnew : (P.withEntry dir).newEntry dir .schedulers none = sched at *
        rcases ((P.withEntry dir).withEntry sched).procCreate_cases dir .workers none f.workersDir
          with ⟨h, -⟩ | ⟨h, -, hworkers⟩
        · refine Or.inl ⟨P.tree.next + 2, Nat.le_add_right _ 2, ?_⟩
          simp only [h, hgone₂, hgone']
          rfl
        · have hgone₃ := procRemove_new ok₂ dir .workers none
          have ok₃ := withEntry_ok ok₂ _ _ none
            (Or.inr (List.mem_cons_of_mem _ (mem_withEntry dir))) hworkers
          simp only [h]
          generalize hlast : ((P.withEntry dir).withEntry sched).newEntry dir .workers none =
            workers at *
          by_cases hpath' : f.workersDirPath = false
          · refine Or.inl ⟨P.tree.next + 3, Nat.le_add_right _ 3, ?_⟩
            rw [if_pos hpath', hgone₃, hgone₂', hgone']
            rfl
          · exact Or.inr ⟨dir, _, sched, _, workers, rfl, rfl, hnew.symm, rfl, hlast.symm, ok₃,
              by rw [if_neg hpath']⟩

end Procfs

/-- The directories of the device, among the entries `E`. -/
structure RootAt (dirs : UmsProcDirs) (E : List ProcPath) : Prop where
  pid : ∃ i p, dirs.pidDir = [⟨i, .pid p, none⟩]
  sched : ∃ i, dirs.schedDir = ⟨i, .schedulers, none⟩ :: dirs.pidDir
  workers : ∃ i, dirs.workersDir = ⟨i, .workers, none⟩ :: dirs.pidDir
  pid_mem : dirs.pidDir ∈ E
  sched_mem : dirs.schedDir ∈ E
  workers_mem : dirs.workersDir ∈ E

structure SchedulerAt (dirs : UmsProcDirs) (E : List ProcPath) (t : Pid) (d : SchedulerProcDirs) :
    Prop where
  dir : ∃ i, d.schedulerDir = ⟨i, .pid t, none⟩ :: dirs.schedDir
  info : ∃ i, d.schedulerInfoDir = ⟨i, .info, none⟩ :: d.schedulerDir
  workers : ∃ i, d.workersDir = ⟨i, .workers, none⟩ :: d.schedulerDir
  dir_mem : d.schedulerDir ∈ E
  info_mem : d.schedulerInfoDir ∈ E
  workers_mem : d.workersDir ∈ E

structure WorkerAt (dirs : UmsProcDirs) (E : List ProcPath) (t : Pid) (d : WorkerProcDirs) :
    Prop where
  dir : ∃ i, d.workerDir = ⟨i, .pid t, none⟩ :: dirs.workersDir
  info : ∃ i, d.workerInfoDir = ⟨i, .info, none⟩ :: d.workerDir
  dir_mem : d.workerDir ∈ E
  info_mem : d.workerInfoDir ∈ E

/-- A link to worker `w` among the workers of a scheduler. -/
def IsLink (d : SchedulerProcDirs) (w : Pid) (e : ProcPath) : Prop :=
  ∃ i n, e = ⟨i, .link n, some w⟩ :: d.workersDir

/-- Everything is where it belongs. `owner w` is the scheduler that has dequeued worker `w`;
its link may be missing if it could not be made. -/
structure Layout (P : Procfs) (owner : Pid → Option Pid) : Prop where
  ok : P.tree.Ok
  root : RootAt P.dirs P.tree.entries
  below : ∀ e ∈ P.tree.entries, P.dirs.pidDir <:+ e
  scheduler : ∀ t d, P.scheduler t = some d → SchedulerAt P.dirs P.tree.entries t d
  worker : ∀ t d, P.worker t = some d → WorkerAt P.dirs P.tree.entries t d
  link : ∀ w p, owner w = some p → ∃ x d, P.worker w = some x ∧ P.scheduler p = some d ∧
    (x.workerLink = .null ∨ ∃ e ∈ P.tree.entries, x.workerLink = .entry e ∧ IsLink d w e)

theorem not_suffix_of_ne {x y e : ProcPath} (hy : y <:+ e) (hlen : x.length = y.length)
    (hne : x ≠ y) : ¬ x <:+ e := fun hx =>
  hne ((List.suffix_of_suffix_length_le hx hy hlen.le).eq_of_length hlen)

theorem not_suffix_of_length {x e : ProcPath} (h : e.length < x.length) : ¬ x <:+ e :=
  fun hx => absurd hx.length_le (by omega)

section Frame

variable {dirs : UmsProcDirs} {E E' : List ProcPath} {T : Tree ProcName (Option Pid)} {t : Pid}
  {x e : ProcPath}

theorem RootAt.length (h : RootAt dirs E) :
    dirs.pidDir.length = 1 ∧ dirs.schedDir.length = 2 ∧ dirs.workersDir.length = 2 := by
  obtain ⟨i, p, hp⟩ := h.pid
  obtain ⟨j, hs⟩ := h.sched
  obtain ⟨k, hw⟩ := h.workers
  simp [hp, hs, hw]

theorem RootAt.ne (h : RootAt dirs E) : dirs.schedDir ≠ dirs.workersDir := by
  obtain ⟨j, hs⟩ := h.sched
  obtain ⟨k, hw⟩ := h.workers
  simp [hs, hw]

theorem RootAt.mono (h : RootAt dirs E) (hE : E ⊆ E') : RootAt dirs E' :=
  ⟨h.pid, h.sched, h.workers, hE h.pid_mem, hE h.sched_mem, hE h.workers_mem⟩

/-- The directories of the device outlive everything that is deeper. -/
theorem RootAt.remove (h : RootAt dirs T.entries) (hx : 2 < x.length) :
    RootAt dirs (T.remove x).entries := by
  obtain ⟨hp, hs, hw⟩ := h.length
  refine ⟨h.pid, h.sched, h.workers, ?_, ?_, ?_⟩
  · exact (Tree.mem_remove _).mpr ⟨h.pid_mem, not_suffix_of_length (by omega)⟩
  · exact (Tree.mem_remove _).mpr ⟨h.sched_mem, not_suffix_of_length (by omega)⟩
  · exact (Tree.mem_remove _).mpr ⟨h.workers_mem, not_suffix_of_length (by omega)⟩

variable {d : SchedulerProcDirs} {w : WorkerProcDirs}

theorem SchedulerAt.mono (h : SchedulerAt dirs E t d) (hE : E ⊆ E') : SchedulerAt dirs E' t d :=
  ⟨h.dir, h.info, h.workers, hE h.dir_mem, hE h.info_mem, hE h.workers_mem⟩

theorem SchedulerAt.length (h : SchedulerAt dirs E t d) (hroot : RootAt dirs E') :
    d.schedulerDir.length = 3 ∧ d.schedulerInfoDir.length = 4 ∧ d.workersDir.length = 4 := by
  obtain ⟨i, hi⟩ := h.dir
  obtain ⟨j, hj⟩ := h.info
  obtain ⟨k, hk⟩ := h.workers
  simp [hj, hk, hi, hroot.length]

theorem SchedulerAt.suffix (h : SchedulerAt dirs E t d) :
    d.schedulerDir <:+ d.schedulerInfoDir ∧ d.schedulerDir <:+ d.workersDir := by
  obtain ⟨j, hj⟩ := h.info
  obtain ⟨k, hk⟩ := h.workers
  rw [hj, hk]
  exact ⟨List.suffix_cons _ _, List.suffix_cons _ _⟩

/-- The entries of a scheduler stay if none of them is below the removed one. -/
theorem SchedulerAt.remove (h : SchedulerAt dirs T.entries t d) (hroot : RootAt dirs E)
    (hx : ∀ e : ProcPath, e.length ≤ 4 → d.schedulerDir <:+ e → ¬ x <:+ e) :
    SchedulerAt dirs (T.remove x).entries t d := by
  obtain ⟨hdir, hinfo, hworkers⟩ := h.length hroot
  refine ⟨h.dir, h.info, h.workers, ?_, ?_, ?_⟩
  · exact (Tree.mem_remove _).mpr ⟨h.dir_mem, hx _ (by omega) (List.suffix_refl _)⟩
  · exact (Tree.mem_remove _).mpr ⟨h.info_mem, hx _ (by omega) h.suffix.1⟩
  · exact (Tree.mem_remove _).mpr ⟨h.workers_mem, hx _ (by omega) h.suffix.2⟩

theorem WorkerAt.mono (h : WorkerAt dirs E t w) (hE : E ⊆ E') : WorkerAt dirs E' t w :=
  ⟨h.dir, h.info, hE h.dir_mem, hE h.info_mem⟩

theorem WorkerAt.length (h : WorkerAt dirs E t w) (hroot : RootAt dirs E') :
    w.workerDir.length = 3 ∧ w.workerInfoDir.length = 4 := by
  obtain ⟨i, hi⟩ := h.dir
  obtain ⟨j, hj⟩ := h.info
  simp [hj, hi, hroot.length]

theorem WorkerAt.suffix (h : WorkerAt dirs E t w) : w.workerDir <:+ w.workerInfoDir := by
  obtain ⟨j, hj⟩ := h.info
  rw [hj]
  exact List.suffix_cons _ _

theorem WorkerAt.remove (h : WorkerAt dirs T.entries t w) (hroot : RootAt dirs E)
    (hx : ∀ e : ProcPath, e.length ≤ 4 → w.workerDir <:+ e → ¬ x <:+ e) :
    WorkerAt dirs (T.remove x).entries t w := by
  obtain ⟨hdir, hinfo⟩ := h.length hroot
  refine ⟨h.dir, h.info, ?_, ?_⟩
  · exact (Tree.mem_remove _).mpr ⟨h.dir_mem, hx _ (by omega) (List.suffix_refl _)⟩
  · exact (Tree.mem_remove _).mpr ⟨h.info_mem, hx _ (by omega) h.suffix⟩

theorem IsLink.length {p : Pid} (h : IsLink d p e) (hd : SchedulerAt dirs E t d)
    (hroot : RootAt dirs E') : e.length = 5 := by
  obtain ⟨i, n, rfl⟩ := h
  simp [hd.length hroot]

theorem IsLink.suffix {p : Pid} (h : IsLink d p e) (hd : SchedulerAt dirs E t d) :
    d.schedulerDir <:+ e := by
  obtain ⟨i, n, rfl⟩ := h
  exact hd.suffix.2.trans (List.suffix_cons _ _)

/-- A scheduler's directory is no worker's, nor that of another scheduler. -/
theorem SchedulerAt.ne_worker (hd : SchedulerAt dirs E t d) {t' : Pid}
    (hw : WorkerAt dirs E t' w) (hroot : RootAt dirs E') : d.schedulerDir ≠ w.workerDir := by
  obtain ⟨i, hi⟩ := hd.dir
  obtain ⟨j, hj⟩ := hw.dir
  rw [hi, hj]
  exact fun he => hroot.ne (List.cons.inj he).2

theorem SchedulerAt.ne_scheduler (hd : SchedulerAt dirs E t d) {t' : Pid}
    {d' : SchedulerProcDirs} (hd' : SchedulerAt dirs E t' d') (hne : t ≠ t') :
    d.schedulerDir ≠ d'.schedulerDir := by
  obtain ⟨i, hi⟩ := hd.dir
  obtain ⟨j, hj⟩ := hd'.dir
  simp [hi, hj, hne]

theorem WorkerAt.ne_worker (hw : WorkerAt dirs E t w) {t' : Pid} {w' : WorkerProcDirs}
    (hw' : WorkerAt dirs E t' w') (hne : t ≠ t') : w.workerDir ≠ w'.workerDir := by
  obtain ⟨i, hi⟩ := hw.dir
  obtain ⟨j, hj⟩ := hw'.dir
  simp [hi, hj, hne]

end Frame

namespace Procfs

variable {P : Procfs} {owner : Pid → Option Pid} {t : Pid}

theorem umsWorkerProcUnregister_eq (d : WorkerProcDirs) (hd : P.worker t = some d)
    (hat : WorkerAt P.dirs P.tree.entries t d) :
    P.umsWorkerProcUnregister t =
      { P.without d.workerDir with worker := Function.update P.worker t none } := by
  obtain ⟨j, hj⟩ := hat.info
  have hmem : d.workerDir ∈ (P.without d.workerInfoDir).tree.entries :=
    (Tree.mem_remove _).mpr ⟨hat.dir_mem, not_suffix_of_length (by simp [hj])⟩
  simp only [umsWorkerProcUnregister, hd]
  rw [procRemove_entry _ _ hat.info_mem, procRemove_entry _ _ hmem]
  simp only [without]
  rw [Tree.remove_remove _ hat.suffix]

theorem umsSchedulerProcUnregister_eq (d : SchedulerProcDirs) (hd : P.scheduler t = some d)
    (hat : SchedulerAt P.dirs P.tree.entries t d) :
    P.umsSchedulerProcUnregister t =
      { P.without d.schedulerDir with scheduler := Function.update P.scheduler t none } := by
  obtain ⟨j, hj⟩ := hat.info
  obtain ⟨k, hk⟩ := hat.workers
  have hinfo : d.schedulerInfoDir ∈ (P.without d.workersDir).tree.entries := by
    refine (Tree.mem_remove _).mpr ⟨hat.info_mem, not_suffix_of_ne (List.suffix_refl _) ?_ ?_⟩ <;>
      simp [hj, hk]
  have hmem : d.schedulerDir ∈ ((P.without d.workersDir).without
      d.schedulerInfoDir).tree.entries := by
    refine (Tree.mem_remove _).mpr ⟨(Tree.mem_remove _).mpr ⟨hat.dir_mem, ?_⟩, ?_⟩
    · exact not_suffix_of_length (by simp [hk])
    · exact not_suffix_of_length (by simp [hj])
  simp only [umsSchedulerProcUnregister, hd]
  rw [procRemove_entry _ _ hat.workers_mem, procRemove_entry _ _ hinfo, procRemove_entry _ _ hmem]
  simp only [without]
  rw [Tree.remove_remove _ hat.suffix.1, Tree.remove_remove _ hat.suffix.2]

end Procfs

namespace Layout

variable {P : Procfs} {owner : Pid → Option Pid} {t : Pid}

theorem skip (lay : Layout P owner) (n : ℕ) (hn : P.tree.next ≤ n) : Layout (P.skip n) owner :=
  ⟨lay.ok.mono n hn, lay.root, lay.below, lay.scheduler, lay.worker, lay.link⟩

/-- New entries in directories of the device. -/
theorem add (lay : Layout P owner) (T : Tree ProcName (Option Pid)) (ok : T.Ok)
    (hsub : P.tree.entries ⊆ T.entries) (hbelow : ∀ e ∈ T.entries, P.dirs.pidDir <:+ e) :
    Layout { P with tree := T } owner := by
  refine ⟨ok, lay.root.mono hsub, hbelow, fun t d hd => (lay.scheduler t d hd).mono hsub,
    fun t d hd => (lay.worker t d hd).mono hsub, fun w p hw => ?_⟩
  obtain ⟨x, d, hx, hd, hl⟩ := lay.link w p hw
  exact ⟨x, d, hx, hd, hl.imp_right fun ⟨e, he, hlink⟩ => ⟨e, hsub he, hlink⟩⟩

theorem withEntry_below (lay : Layout P owner) (d : ProcPath) (n : ProcName) (v : Option Pid)
    (hd : d ∈ P.tree.entries) : ∀ e ∈ (P.withEntry (P.newEntry d n v)).tree.entries,
      P.dirs.pidDir <:+ e := by
  intro e he
  rcases List.mem_cons.mp he with rfl | he
  · exact (lay.below d hd).trans (List.suffix_cons _ _)
  · exact lay.below e he

/-- A directory that is to be made for a worker is not there yet. -/
theorem worker_none (lay : Layout P owner)
    (h : P.tree.hasName P.dirs.workersDir (.pid t) = false) : P.worker t = none := by
  cases hw : P.worker t with
  | none => rfl
  | some d =>
    obtain ⟨i, hi⟩ := (lay.worker t d hw).dir
    have hmem := (lay.worker t d hw).dir_mem
    rw [hi] at hmem
    rw [Tree.hasName_iff.mpr ⟨_, hmem, rfl⟩] at h
    cases h

theorem scheduler_none (lay : Layout P owner)
    (h : P.tree.hasName P.dirs.schedDir (.pid t) = false) : P.scheduler t = none := by
  cases hs : P.scheduler t with
  | none => rfl
  | some d =>
    obtain ⟨i, hi⟩ := (lay.scheduler t d hs).dir
    have hmem := (lay.scheduler t d hs).dir_mem
    rw [hi] at hmem
    rw [Tree.hasName_iff.mpr ⟨_, hmem, rfl⟩] at h
    cases h

/-- A worker whose directories are there is registered. -/
theorem setWorker (lay : Layout P owner) (ht : P.worker t = none) (d : WorkerProcDirs)
    (hd : WorkerAt P.dirs P.tree.entries t d) :
    Layout { P with worker := Function.update P.worker t (some d) } owner := by
  refine ⟨lay.ok, lay.root, lay.below, lay.scheduler, fun u x hx => ?_, fun w p hw => ?_⟩
  · rcases KernelList.update_some_cases hx with ⟨rfl, rfl⟩ | ⟨-, hx⟩
    · exact hd
    · exact lay.worker u x hx
  · obtain ⟨x, y, hx, hy, hl⟩ := lay.link w p hw
    have hne : w ≠ t := by
      rintro rfl
      rw [ht] at hx
      cases hx
    exact ⟨x, y, (Function.update_of_ne hne _ _).trans hx, hy, hl⟩

theorem setScheduler (lay : Layout P owner) (ht : P.scheduler t = none) (d : SchedulerProcDirs)
    (hd : SchedulerAt P.dirs P.tree.entries t d) :
    Layout { P with scheduler := Function.update P.scheduler t (some d) } owner := by
  refine ⟨lay.ok, lay.root, lay.below, fun u x hx => ?_, lay.worker, fun w p hw => ?_⟩
  · rcases KernelList.update_some_cases hx with ⟨rfl, rfl⟩ | ⟨-, hx⟩
    · exact hd
    · exact lay.scheduler u x hx
  · obtain ⟨x, y, hx, hy, hl⟩ := lay.link w p hw
    have hne : p ≠ t := by
      rintro rfl
      rw [ht] at hy
      cases hy
    exact ⟨x, y, hx, (Function.update_of_ne hne _ _).trans hy, hl⟩

/-- The registration of a worker either fails and leaves the tree as it was, or adds two
entries. -/
theorem registerWorker (lay : Layout P owner) (t : Pid) (f : WorkerRegister) :
    (∃ n, P.tree.next ≤ n ∧ P.umsWorkerProcRegister t f = (false, P.skip n)) ∨
    ∃ n d, P.worker t = none ∧ P.umsWorkerProcRegister t f = (true, { P with
        tree := ⟨d.workerInfoDir :: d.workerDir :: P.tree.entries, n⟩
        worker := Function.update P.worker t (some d) }) ∧
      Layout { P with tree := ⟨d.workerInfoDir :: d.workerDir :: P.tree.entries, n⟩ } owner ∧
      Layout { P with
        tree := ⟨d.workerInfoDir :: d.workerDir :: P.tree.entries, n⟩
        worker := Function.update P.worker t (some d) } owner := by
  rcases Procfs.umsWorkerProcRegister_cases lay.ok lay.root.workers_mem t f with
    h | ⟨dir, Q, info, hdir, rfl, hinfo, ok, hname, h⟩
  · exact Or.inl h
  · have hnone := lay.worker_none hname
    have hlay : Layout { P with tree := ((P.withEntry dir).withEntry info).tree } owner := by
      refine lay.add _ ok (fun e he => ?_) (fun e he => ?_)
      · exact List.mem_cons_of_mem _ (List.mem_cons_of_mem _ he)
      · rcases List.mem_cons.mp he with rfl | he
        · rw [hinfo, hdir]
          exact (lay.below _ lay.root.workers_mem).trans
            ((List.suffix_cons _ _).trans (List.suffix_cons _ _))
        · rw [hdir] at he
          exact lay.withEntry_below _ _ _ lay.root.workers_mem e he
    refine Or.inr ⟨_, ⟨dir, info, .junk⟩, hnone, h, hlay,
      hlay.setWorker hnone _ ⟨⟨_, hdir⟩, ⟨_, hinfo⟩, ?_, ?_⟩⟩
    · exact List.mem_cons_of_mem _ List.mem_cons_self
    · exact List.mem_cons_self

theorem registerScheduler (lay : Layout P owner) (t : Pid) (f : SchedulerRegister) :
    (∃ n, P.tree.next ≤ n ∧ P.umsSchedulerProcRegister t f = (false, P.skip n)) ∨
    ∃ n d, P.scheduler t = none ∧ d.nWorkers = 0 ∧ d.workersDir ∉ P.tree.entries ∧
      P.umsSchedulerProcRegister t f = (true, { P with
        tree := ⟨d.workersDir :: d.schedulerInfoDir :: d.schedulerDir :: P.tree.entries, n⟩
        scheduler := Function.update P.scheduler t (some d) }) ∧
      Layout { P with
        tree := ⟨d.workersDir :: d.schedulerInfoDir :: d.schedulerDir :: P.tree.entries, n⟩ }
        owner ∧
      Layout { P with
        tree := ⟨d.workersDir :: d.schedulerInfoDir :: d.schedulerDir :: P.tree.entries, n⟩
        scheduler := Function.update P.scheduler t (some d) } owner := by
  rcases Procfs.umsSchedulerProcRegister_cases lay.ok lay.root.sched_mem t f with
    h | ⟨dir, Q, info, R, workers, hdir, rfl, hinfo, rfl, hworkers, ok, hname, h⟩
  · exact Or.inl h
  · have hnone := lay.scheduler_none hname
    have hbelow : P.dirs.pidDir <:+ dir := by
      rw [hdir]
      exact (lay.below _ lay.root.sched_mem).trans (List.suffix_cons _ _)
    have hlay : Layout { P with
        tree := (((P.withEntry dir).withEntry info).withEntry workers).tree } owner := by
      refine lay.add _ ok (fun e he => ?_) (fun e he => ?_)
      · exact List.mem_cons_of_mem _ (List.mem_cons_of_mem _ (List.mem_cons_of_mem _ he))
      · rcases List.mem_cons.mp he with rfl | he
        · rw [hworkers]
          exact hbelow.trans (List.suffix_cons _ _)
        · rcases List.mem_cons.mp he with rfl | he
          · rw [hinfo]
            exact hbelow.trans (List.suffix_cons _ _)
          · rw [hdir] at he
            exact lay.withEntry_below _ _ _ lay.root.sched_mem e he
    -- the directory of the links is a new one
    have hnew : workers ∉ P.tree.entries := fun hmem => by
      have hnd := ok.nodup
      simp only [Procfs.withEntry, List.nodup_cons, List.mem_cons, not_or] at hnd
      exact hnd.1.2.2 hmem
    refine Or.inr ⟨_, ⟨dir, info, workers, 0, 0⟩, hnone, rfl, hnew, h, hlay,
      hlay.setScheduler hnone _ ⟨⟨_, hdir⟩, ⟨_, hinfo⟩, ⟨_, hworkers⟩, ?_, ?_, ?_⟩⟩
    · exact List.mem_cons_of_mem _ (List.mem_cons_of_mem _ List.mem_cons_self)
    · exact List.mem_cons_of_mem _ List.mem_cons_self
    · exact List.mem_cons_self

/-- Nothing but the directory of the worker goes with it. -/
theorem unregisterWorker (lay : Layout P owner) (t : Pid) (ht : owner t = none) :
    Layout (P.umsWorkerProcUnregister t) owner := by
  cases hw : P.worker t with
  | none => simpa [Procfs.umsWorkerProcUnregister, hw] using lay
  | some x =>
    have hat := lay.worker t x hw
    have hlen := (hat.length lay.root).1
    rw [Procfs.umsWorkerProcUnregister_eq x hw hat]
    refine ⟨lay.ok.remove _, lay.root.remove (by omega), ?_, ?_, ?_, ?_⟩
    · exact fun e he => lay.below e ((Tree.mem_remove e).mp he).1
    · intro p d hd
      have hdat := lay.scheduler p d hd
      exact hdat.remove lay.root fun e _ hs => not_suffix_of_ne hs
        (hlen.trans (hdat.length lay.root).1.symm) (hdat.ne_worker hat lay.root).symm
    · intro u y hy
      obtain ⟨hut, hy⟩ := KernelList.of_update_none hy
      have hyat := lay.worker u y hy
      exact hyat.remove lay.root fun e _ hs => not_suffix_of_ne hs
        (hlen.trans (hyat.length lay.root).1.symm) (hat.ne_worker hyat (Ne.symm hut))
    · intro w p ho
      obtain ⟨y, d, hy, hd, hl⟩ := lay.link w p ho
      have hwt : w ≠ t := by
        rintro rfl
        rw [ht] at ho
        cases ho
      have hdat := lay.scheduler p d hd
      refine ⟨y, d, (Function.update_of_ne hwt _ _).trans hy, hd, hl.imp_right ?_⟩
      rintro ⟨e, he, hye, hlink⟩
      refine ⟨e, (Tree.mem_remove e).mpr ⟨he, ?_⟩, hye, hlink⟩
      exact not_suffix_of_ne (hlink.suffix hdat)
        (hlen.trans (hdat.length lay.root).1.symm) (hdat.ne_worker hat lay.root).symm

/-- Nothing but the directory of the scheduler goes with it, with the links in it. -/
theorem unregisterScheduler (lay : Layout P owner) (t : Pid) (ht : ∀ w, owner w ≠ some t) :
    Layout (P.umsSchedulerProcUnregister t) owner := by
  cases hs : P.scheduler t with
  | none => simpa [Procfs.umsSchedulerProcUnregister, hs] using lay
  | some x =>
    have hat := lay.scheduler t x hs
    have hlen := (hat.length lay.root).1
    rw [Procfs.umsSchedulerProcUnregister_eq x hs hat]
    refine ⟨lay.ok.remove _, lay.root.remove (by omega), ?_, ?_, ?_, ?_⟩
    · exact fun e he => lay.below e ((Tree.mem_remove e).mp he).1
    · intro p d hd
      obtain ⟨hpt, hd⟩ := KernelList.of_update_none hd
      have hdat := lay.scheduler p d hd
      exact hdat.remove lay.root fun e _ hs => not_suffix_of_ne hs
        (hlen.trans (hdat.length lay.root).1.symm) (hat.ne_scheduler hdat (Ne.symm hpt))
    · intro u y hy
      have hyat := lay.worker u y hy
      exact hyat.remove lay.root fun e _ hs => not_suffix_of_ne hs
        (hlen.trans (hyat.length lay.root).1.symm) (hat.ne_worker hyat lay.root)
    · intro w p ho
      obtain ⟨y, d, hy, hd, hl⟩ := lay.link w p ho
      have hpt : p ≠ t := by
        rintro rfl
        exact ht w ho
      have hdat := lay.scheduler p d hd
      refine ⟨y, d, hy, (Function.update_of_ne hpt _ _).trans hd, hl.imp_right ?_⟩
      rintro ⟨e, he, hye, hlink⟩
      refine ⟨e, (Tree.mem_remove e).mpr ⟨he, ?_⟩, hye, hlink⟩
      exact not_suffix_of_ne (hlink.suffix hdat)
        (hlen.trans (hdat.length lay.root).1.symm) (hat.ne_scheduler hdat (Ne.symm hpt))

theorem unregisterWorker_fields (lay : Layout P owner) (t : Pid) :
    (P.umsWorkerProcUnregister t).worker = Function.update P.worker t none ∧
      (P.umsWorkerProcUnregister t).scheduler = P.scheduler ∧
      (P.umsWorkerProcUnregister t).bad = P.bad := by
  cases hw : P.worker t with
  | none =>
    have hsame : Function.update P.worker t none = P.worker := by
      rw [← hw, Function.update_eq_self]
    simp [Procfs.umsWorkerProcUnregister, hw, hsame]
  | some x =>
    rw [Procfs.umsWorkerProcUnregister_eq x hw (lay.worker t x hw)]
    exact ⟨rfl, rfl, rfl⟩

theorem unregisterScheduler_fields (lay : Layout P owner) (t : Pid) :
    (P.umsSchedulerProcUnregister t).scheduler = Function.update P.scheduler t none ∧
      (P.umsSchedulerProcUnregister t).worker = P.worker ∧
      (P.umsSchedulerProcUnregister t).bad = P.bad := by
  cases hs : P.scheduler t with
  | none =>
    have hsame : Function.update P.scheduler t none = P.scheduler := by
      rw [← hs, Function.update_eq_self]
    simp [Procfs.umsSchedulerProcUnregister, hs, hsame]
  | some x =>
    rw [Procfs.umsSchedulerProcUnregister_eq x hs (lay.scheduler t x hs)]
    exact ⟨rfl, rfl, rfl⟩

/-- Pointers to links and the counts of schedulers may change as long as the owners find their
links. -/
theorem setLinks (lay : Layout P owner) (owner' : Pid → Option Pid) (p c : Pid)
    (d d' : SchedulerProcDirs) (hd : P.scheduler p = some d)
    (hd' : d' = { d with nWorkers := d'.nWorkers, maxWorkers := d'.maxWorkers })
    (w : WorkerProcDirs) (hw : P.worker c = some w) (ptr : EntryPtr)
    (hother : ∀ u, u ≠ c → owner' u = owner u)
    (hc : ∀ q, owner' c = some q → q = p ∧
      (ptr = .null ∨ ∃ e ∈ P.tree.entries, ptr = .entry e ∧ IsLink d c e)) :
    Layout { P with
      worker := Function.update P.worker c (some { w with workerLink := ptr })
      scheduler := Function.update P.scheduler p (some d') } owner' := by
  -- the links are found through `workersDir`, which no count changes
  have hdirs (u : Pid) (x : SchedulerProcDirs) (hx : P.scheduler u = some x) :
      ∃ x', Function.update P.scheduler p (some d') u = some x' ∧ x'.workersDir = x.workersDir := by
    by_cases hup : u = p
    · subst hup
      obtain rfl : d = x := Option.some.inj (hd.symm.trans hx)
      exact ⟨d', Function.update_self _ _ _, by rw [hd']⟩
    · exact ⟨x, (Function.update_of_ne hup _ _).trans hx, rfl⟩
  refine ⟨lay.ok, lay.root, lay.below, fun u x hx => ?_, fun u x hx => ?_, fun u q hu => ?_⟩
  · rcases KernelList.update_some_cases hx with ⟨rfl, rfl⟩ | ⟨-, hx⟩
    · rw [hd']
      have hat := lay.scheduler u d hd
      exact ⟨hat.dir, hat.info, hat.workers, hat.dir_mem, hat.info_mem, hat.workers_mem⟩
    · exact lay.scheduler u x hx
  · rcases KernelList.update_some_cases hx with ⟨rfl, rfl⟩ | ⟨-, hx⟩
    · have hat := lay.worker u w hw
      exact ⟨hat.dir, hat.info, hat.dir_mem, hat.info_mem⟩
    · exact lay.worker u x hx
  · by_cases huc : u = c
    · subst huc
      obtain ⟨rfl, hl⟩ := hc q hu
      obtain ⟨x', hx', hdir⟩ := hdirs q d hd
      refine ⟨_, x', Function.update_self _ _ _, hx', hl.imp_right ?_⟩
      rintro ⟨e, he, hpe, i, n, hlink⟩
      exact ⟨e, he, hpe, i, n, by rw [hdir]; exact hlink⟩
    · rw [hother u huc] at hu
      obtain ⟨y, x, hy, hx, hl⟩ := lay.link u q hu
      obtain ⟨x', hx', hdir⟩ := hdirs q x hx
      refine ⟨y, x', (Function.update_of_ne huc _ _).trans hy, hx', hl.imp_right ?_⟩
      rintro ⟨e, he, hpe, i, n, hlink⟩
      exact ⟨e, he, hpe, i, n, by rw [hdir]; exact hlink⟩

/-- The registration of a link, made or not, for a worker that goes to scheduler `p` or stays
with nobody. -/
theorem registerLink (lay : Layout P owner) (owner' : Pid → Option Pid) (p c : Pid) (memory : Bool)
    (d : SchedulerProcDirs) (hd : P.scheduler p = some d) (w : WorkerProcDirs)
    (hw : P.worker c = some w) (hother : ∀ u, u ≠ c → owner' u = owner u)
    (hc : ∀ q, owner' c = some q → q = p) :
    Layout (P.umsSchedulerProcRegisterWorker p c memory).2 owner' := by
  rcases P.umsSchedulerProcRegisterWorker_cases p c memory d w hd hw with
    ⟨h, -⟩ | ⟨e, he, h, -, hname⟩
  · rw [h]
    have hlay := lay.setLinks owner' p c d d hd rfl w hw .null hother
      (fun q hq => ⟨hc q hq, Or.inl rfl⟩)
    have hsame : Function.update P.scheduler p (some d) = P.scheduler := by
      rw [← hd, Function.update_eq_self]
    rwa [hsame] at hlay
  · rw [h]
    have hat := lay.scheduler p d hd
    have hlay : Layout (P.withEntry e) owner := by
      refine lay.add _ ?_ (fun x hx => List.mem_cons_of_mem _ hx) ?_
      · rw [he]
        exact Procfs.withEntry_ok lay.ok _ _ _ (Or.inr hat.workers_mem) hname
      · rw [he]
        exact lay.withEntry_below _ _ _ hat.workers_mem
    exact hlay.setLinks owner' p c d _ hd rfl w hw (.entry e) hother
      (fun q hq => ⟨hc q hq, Or.inr ⟨e, Procfs.mem_withEntry e, rfl, _, _, he⟩⟩)

end Layout

namespace Procfs

variable {P : Procfs}

/-- The pid of the device in `/proc/ums` goes with everything below it, so that the two other
removals come too late. -/
theorem umsProcDirsDestroy_eq (hroot : RootAt P.dirs P.tree.entries)
    (hbelow : ∀ e ∈ P.tree.entries, P.dirs.pidDir <:+ e) :
    P.umsProcDirsDestroy = { P with
      tree := ⟨[], P.tree.next⟩
      bad := (.procDirsDestroy, .entry P.dirs.workersDir) ::
        (.procDirsDestroy, .entry P.dirs.schedDir) :: P.bad } := by
  have hgone : P.tree.remove P.dirs.pidDir = ⟨[], P.tree.next⟩ := by
    refine Tree.ext ?_ rfl
    exact List.filter_eq_nil_iff.mpr (fun e he => by simpa using hbelow e he)
  have hfirst : P.procRemove .procDirsDestroy (.entry P.dirs.pidDir) =
      { P with tree := ⟨[], P.tree.next⟩ } := by
    rw [procRemove_entry _ _ hroot.pid_mem, without, hgone]
  rw [umsProcDirsDestroy, hfirst]
  simp [procRemove, Tree.remove]

end Procfs

namespace Layout

variable {P : Procfs} {owner : Pid → Option Pid}

/-- A link goes alone. -/
theorem removeLink (lay : Layout P owner) (t w : Pid) (d : SchedulerProcDirs)
    (hd : P.scheduler t = some d) (e : ProcPath) (hlink : IsLink d w e) :
    Layout (P.without e) (Function.update owner w none) := by
  have hlen := hlink.length (lay.scheduler t d hd) lay.root
  refine ⟨lay.ok.remove e, lay.root.remove (by omega), ?_, ?_, ?_, ?_⟩
  · exact fun x hx => lay.below x ((Tree.mem_remove x).mp hx).1
  · exact fun u x hx => (lay.scheduler u x hx).remove lay.root fun y hy _ =>
      not_suffix_of_length (by omega)
  · exact fun u x hx => (lay.worker u x hx).remove lay.root fun y hy _ =>
      not_suffix_of_length (by omega)
  · intro u q hu
    obtain ⟨huw, hu⟩ := KernelList.of_update_none hu
    obtain ⟨x, y, hx, hy, hl⟩ := lay.link u q hu
    refine ⟨x, y, hx, hy, hl.imp_right ?_⟩
    rintro ⟨e', he', hxe, hlink'⟩
    refine ⟨e', (Tree.mem_remove e').mpr ⟨he', ?_⟩, hxe, hlink'⟩
    refine not_suffix_of_ne (List.suffix_refl e')
      (hlen.trans (hlink'.length (lay.scheduler q y hy) lay.root).symm) ?_
    obtain ⟨i, n, rfl⟩ := hlink
    obtain ⟨i', n', rfl⟩ := hlink'
    simp [Ne.symm huw]

/-- What is left of the tree when a scheduler executes a worker that it owns. -/
def Unlinked (T T' : Tree ProcName (Option Pid)) (d : SchedulerProcDirs) (w : Pid)
    (ptr : EntryPtr) : Prop :=
  (ptr = .null ∧ T' = T) ∨ ∃ e ∈ T.entries, ptr = .entry e ∧ IsLink d w e ∧ T' = T.remove e

theorem unregisterLink (lay : Layout P owner) (t w : Pid) (ho : owner w = some t) :
    ∃ x d T, P.worker w = some x ∧ P.scheduler t = some d ∧ Unlinked P.tree T d w x.workerLink ∧
      P.umsSchedulerProcUnregisterWorker t w = { P with
        tree := T
        scheduler := Function.update P.scheduler t (some { d with
          nWorkers := Procfs.decrement d.nWorkers
          maxWorkers := if Procfs.decrement d.nWorkers = 0 then 0 else d.maxWorkers })
        underflow := P.underflow || d.nWorkers = 0 } ∧
      Layout (P.umsSchedulerProcUnregisterWorker t w) (Function.update owner w none) := by
  obtain ⟨x, d, hx, hd, hl⟩ := lay.link w t ho
  have hsame : Function.update P.worker w (some { x with workerLink := x.workerLink }) =
      P.worker := by
    rw [← Function.update_eq_self w P.worker, hx]
    simp
  -- the count goes down whether or not there was a link to remove
  have hlast (T : Tree ProcName (Option Pid))
      (hT : Layout { P with tree := T } (Function.update owner w none)) :
      Layout { P with
        tree := T
        scheduler := Function.update P.scheduler t (some { d with
          nWorkers := Procfs.decrement d.nWorkers
          maxWorkers := if Procfs.decrement d.nWorkers = 0 then 0 else d.maxWorkers })
        underflow := P.underflow || d.nWorkers = 0 } (Function.update owner w none) := by
    have h := hT.setLinks (Function.update owner w none) t w d { d with
      nWorkers := Procfs.decrement d.nWorkers
      maxWorkers := if Procfs.decrement d.nWorkers = 0 then 0 else d.maxWorkers } hd rfl x hx
      x.workerLink (fun _ _ => rfl) (fun q hq => by simp at hq)
    simp only [hsame] at h
    exact ⟨h.ok, h.root, h.below, h.scheduler, h.worker, h.link⟩
  rcases hl with hnull | ⟨e, he, hentry, hlink⟩
  · have heq : P.umsSchedulerProcUnregisterWorker t w = { P with
        scheduler := Function.update P.scheduler t (some { d with
          nWorkers := Procfs.decrement d.nWorkers
          maxWorkers := if Procfs.decrement d.nWorkers = 0 then 0 else d.maxWorkers })
        underflow := P.underflow || d.nWorkers = 0 } := by
      simp [Procfs.umsSchedulerProcUnregisterWorker, hx, hd, hnull, Procfs.procRemove]
    refine ⟨x, d, P.tree, hx, hd, Or.inl ⟨hnull, rfl⟩, heq, ?_⟩
    rw [heq]
    refine hlast P.tree ⟨lay.ok, lay.root, lay.below, lay.scheduler, lay.worker, ?_⟩
    exact fun u q hu => lay.link u q (KernelList.of_update_none hu).2
  · have heq : P.umsSchedulerProcUnregisterWorker t w = { P with
        tree := P.tree.remove e
        scheduler := Function.update P.scheduler t (some { d with
          nWorkers := Procfs.decrement d.nWorkers
          maxWorkers := if Procfs.decrement d.nWorkers = 0 then 0 else d.maxWorkers })
        underflow := P.underflow || d.nWorkers = 0 } := by
      simp [Procfs.umsSchedulerProcUnregisterWorker, hx, hd, hentry, Procfs.procRemove, he]
    refine ⟨x, d, P.tree.remove e, hx, hd, Or.inr ⟨e, he, hentry, hlink, rfl⟩, heq, ?_⟩
    rw [heq]
    exact hlast _ (lay.removeLink t w d hd e hlink)

/-- A device is opened when nothing is left of earlier ones. -/
theorem opened (ok : P.tree.Ok) (hempty : P.tree.entries = []) (hs : ∀ t, P.scheduler t = none)
    (hw : ∀ t, P.worker t = none) (pid : Pid) (f : DirsInit) :
    (∃ n, P.tree.next ≤ n ∧ P.umsProcDirsInit pid f = (false, P.skip n)) ∨
      ∃ P', P.umsProcDirsInit pid f = (true, P') ∧ P'.scheduler = P.scheduler ∧
        P'.worker = P.worker ∧ P'.bad = P.bad ∧ P'.underflow = P.underflow ∧
        P'.tree.entries = [P'.dirs.workersDir, P'.dirs.schedDir, P'.dirs.pidDir] ∧
        Layout P' (fun _ => none) := by
  rcases Procfs.umsProcDirsInit_cases ok pid f with
    h | ⟨dir, Q, sched, R, workers, hdir, rfl, hsched, rfl, hworkers, ok', h⟩
  · exact Or.inl h
  · refine Or.inr ⟨_, h, rfl, rfl, rfl, rfl, by simp [Procfs.withEntry, hempty], ok', ?_, ?_, ?_,
      ?_, ?_⟩
    · refine ⟨⟨_, _, hdir⟩, ⟨_, hsched⟩, ⟨_, hworkers⟩, ?_, ?_, ?_⟩ <;>
        simp [Procfs.withEntry]
    · intro e he
      simp only [Procfs.withEntry, hempty, List.mem_cons, List.not_mem_nil, or_false] at he
      rcases he with rfl | rfl | rfl
      · rw [hworkers]
        exact List.suffix_cons _ _
      · rw [hsched]
        exact List.suffix_cons _ _
      · exact List.suffix_refl _
    · exact fun t d hd => by simp [Procfs.withEntry, hs] at hd
    · exact fun t d hd => by simp [Procfs.withEntry, hw] at hd
    · exact fun _ _ h => by simp at h

end Layout

/-- The same schedulers and workers are registered, and every removal has found its entry. -/
structure SameTables (P P' : Procfs) : Prop where
  bad : P'.bad = P.bad
  scheduler : ∀ t, P'.scheduler t = none ↔ P.scheduler t = none
  worker : ∀ t, P'.worker t = none ↔ P.worker t = none

theorem SameTables.refl (P : Procfs) : SameTables P P := ⟨rfl, fun _ => Iff.rfl, fun _ => Iff.rfl⟩

theorem SameTables.trans {P Q R : Procfs} (h : SameTables P Q) (h' : SameTables Q R) :
    SameTables P R :=
  ⟨h'.bad.trans h.bad, fun t => (h'.scheduler t).trans (h.scheduler t),
    fun t => (h'.worker t).trans (h.worker t)⟩

namespace Procfs

variable {P : Procfs}

theorem registerWorker_tables (p c : Pid) (memory : Bool) (d : SchedulerProcDirs)
    (hd : P.scheduler p = some d) (w : WorkerProcDirs) (hw : P.worker c = some w) :
    SameTables P (P.umsSchedulerProcRegisterWorker p c memory).2 := by
  rcases P.umsSchedulerProcRegisterWorker_cases p c memory d w hd hw with
    ⟨h, -⟩ | ⟨e, he, h, -, -⟩
  · rw [h]
    exact ⟨rfl, fun _ => Iff.rfl, KernelList.update_none_iff _ c w _ hw⟩
  · rw [h]
    exact ⟨rfl, KernelList.update_none_iff _ p d _ hd,
      KernelList.update_none_iff _ c w _ hw⟩

end Procfs

/-- The links of the workers in `cs`, which go to scheduler `p` or stay with nobody. -/
theorem Layout.registerWorkers {P : Procfs} {owner : Pid → Option Pid} (lay : Layout P owner)
    (owner' : Pid → Option Pid) (p : Pid) (hp : P.scheduler p ≠ none) (cs : List (Pid × Bool))
    (hcs : ∀ x ∈ cs, P.worker x.1 ≠ none) (hother : ∀ u, (∀ x ∈ cs, x.1 ≠ u) → owner' u = owner u)
    (hcs' : ∀ x ∈ cs, ∀ q, owner' x.1 = some q → q = p) :
    Layout (P.registerWorkers p cs) owner' ∧ SameTables P (P.registerWorkers p cs) := by
  induction cs generalizing P owner with
  | nil =>
    obtain rfl : owner' = owner := funext fun u => hother u (by simp)
    exact ⟨lay, .refl P⟩
  | cons x cs ih =>
    obtain ⟨d, hd⟩ := Option.ne_none_iff_exists'.mp hp
    obtain ⟨w, hw⟩ := Option.ne_none_iff_exists'.mp (hcs x List.mem_cons_self)
    have htab := Procfs.registerWorker_tables p x.1 x.2 d hd w hw
    -- the owner of the first worker changes now, those of the others later
    have hlay := lay.registerLink (Function.update owner x.1 (owner' x.1)) p x.1 x.2 d hd w hw
      (fun u hu => Function.update_of_ne hu _ _)
      (fun q hq => hcs' x List.mem_cons_self q (by simpa using hq))
    have hrest (u : Pid) (hu : ∀ y ∈ cs, y.1 ≠ u) :
        owner' u = Function.update owner x.1 (owner' x.1) u := by
      by_cases hux : u = x.1
      · rw [hux, Function.update_self]
      · rw [Function.update_of_ne hux]
        refine hother u fun y hy => ?_
        rcases List.mem_cons.mp hy with rfl | hy
        · exact Ne.symm hux
        · exact hu y hy
    obtain ⟨h₁, h₂⟩ := ih hlay (fun h => hp ((htab.scheduler p).mp h))
      (fun y hy h => hcs y (List.mem_cons_of_mem _ hy) ((htab.worker y.1).mp h)) hrest
      (fun y hy => hcs' y (List.mem_cons_of_mem _ hy))
    exact ⟨h₁, htab.trans h₂⟩

end LinuxUms
