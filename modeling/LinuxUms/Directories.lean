import LinuxUms.Tables

/-! Which directories stand for which contexts. Every context of a table has a directory named
after its pid; here it is shown that there are no others, whatever links are made and removed in
the directories of schedulers. -/
namespace LinuxUms

open ProcTree

namespace Procfs

variable (P : Procfs) {P' : Procfs} {t : Pid} {r : Role} {e : ProcPath}

/-- The directory in which the contexts of a role have theirs. -/
def dirOf : Role → ProcPath
  | .worker => P.dirs.workersDir
  | .scheduler => P.dirs.schedDir

/-- The directory of a context. -/
def contextDir (t : Pid) : Role → Option ProcPath
  | .worker => (P.worker t).map (·.workerDir)
  | .scheduler => (P.scheduler t).map (·.schedulerDir)

variable {P}

theorem hasDirs_iff : P.HasDirs t r ↔ ∃ e, P.contextDir t r = some e := by
  cases r with
  | worker => cases hw : P.worker t <;> simp [HasDirs, contextDir, hw]
  | scheduler => cases hs : P.scheduler t <;> simp [HasDirs, contextDir, hs]

theorem contextDir_at (lay : Layout P (fun _ => none)) (h : P.contextDir t r = some e) :
    (∃ i, e = ⟨i, .pid t, none⟩ :: P.dirOf r) ∧ e ∈ P.tree.entries := by
  cases r with
  | worker =>
    obtain ⟨d, hd, rfl⟩ := Option.map_eq_some_iff.mp h
    exact ⟨(lay.worker t d hd).dir, (lay.worker t d hd).dir_mem⟩
  | scheduler =>
    obtain ⟨d, hd, rfl⟩ := Option.map_eq_some_iff.mp h
    exact ⟨(lay.scheduler t d hd).dir, (lay.scheduler t d hd).dir_mem⟩

/-- A context goes with its directory. -/
theorem unregister_some (lay : Layout P (fun _ => none)) (h : P.contextDir t r = some e) :
    (P.unregister t r).tree = P.tree.remove e ∧ (P.unregister t r).dirs = P.dirs := by
  cases r with
  | worker =>
    obtain ⟨d, hd, rfl⟩ := Option.map_eq_some_iff.mp h
    rw [unregister, umsWorkerProcUnregister_eq d hd (lay.worker t d hd)]
    exact ⟨rfl, rfl⟩
  | scheduler =>
    obtain ⟨d, hd, rfl⟩ := Option.map_eq_some_iff.mp h
    rw [unregister, umsSchedulerProcUnregister_eq d hd (lay.scheduler t d hd)]
    exact ⟨rfl, rfl⟩

theorem unregister_none (h : ¬ P.HasDirs t r) : P.unregister t r = P := by
  cases r with
  | worker =>
    have hw : P.worker t = none := not_not.mp h
    simp [unregister, umsWorkerProcUnregister, hw]
  | scheduler =>
    have hs : P.scheduler t = none := not_not.mp h
    simp [unregister, umsSchedulerProcUnregister, hs]

end Procfs

/-- Every entry named after a pid belongs to a context, and pointers to links lead to nothing but
links, which are five deep. -/
structure Tidy (P : Procfs) : Prop where
  layout : Layout P (fun _ => none)
  named : ∀ r t x, x :: P.dirOf r ∈ P.tree.entries → x.name = .pid t → P.HasDirs t r
  links : ∀ c w e, P.worker c = some w → w.workerLink = .entry e → e.length = 5

namespace Tidy

variable {P P' : Procfs} {t : Pid} {r : Role}

theorem length_dirOf (h : Tidy P) (r : Role) : (P.dirOf r).length = 2 := by
  obtain ⟨-, hs, hw⟩ := h.layout.root.length
  cases r with
  | worker => exact hw
  | scheduler => exact hs

theorem dirOf_injective (h : Tidy P) {q : Role} (he : P.dirOf q = P.dirOf r) : q = r := by
  cases q <;> cases r
  · rfl
  · exact absurd he.symm h.layout.root.ne
  · exact absurd he h.layout.root.ne
  · rfl

theorem hasName_iff (h : Tidy P) :
    P.tree.hasName (P.dirOf r) (.pid t) = true ↔ P.HasDirs t r := by
  rw [Tree.hasName_iff]
  constructor
  · intro ⟨x, hx, hname⟩
    exact h.named r t x hx hname
  · intro hd
    obtain ⟨e, he⟩ := Procfs.hasDirs_iff.mp hd
    obtain ⟨⟨i, rfl⟩, hmem⟩ := Procfs.contextDir_at h.layout he
    exact ⟨_, hmem, rfl⟩

theorem skip (h : Tidy P) (n : ℕ) (hn : P.tree.next ≤ n) : Tidy (P.skip n) :=
  ⟨h.layout.skip n hn, h.named, h.links⟩

/-- Entries are added, of which those named after a pid belong to a context. -/
theorem named_add (h : Tidy P) (hdirs : P'.dirs = P.dirs) (es : List ProcPath)
    (hentries : P'.tree.entries = es ++ P.tree.entries)
    (hes : ∀ r t x, x :: P.dirOf r ∈ es → x.name = .pid t → P'.HasDirs t r)
    (hhas : ∀ u q, P.HasDirs u q → P'.HasDirs u q) :
    ∀ r t x, x :: P'.dirOf r ∈ P'.tree.entries → x.name = .pid t → P'.HasDirs t r := by
  intro r t x hx hname
  have hdir : P'.dirOf r = P.dirOf r := by
    cases r <;> simp only [Procfs.dirOf, hdirs]
  rw [hdir, hentries] at hx
  rcases List.mem_append.mp hx with hnew | hold
  · exact hes r t x hnew hname
  · exact hhas t r (h.named r t x hold hname)

/-- A registration adds the directory of the context and what is in it. -/
theorem register_eq (h : Tidy P) (f : ProcRegister) (hreg : P.register t f = (true, P')) :
    ∃ e es, e = P.newEntry (P.dirOf f.role) (.pid t) none ∧
      P'.tree.entries = es ++ e :: P.tree.entries ∧ (∀ x ∈ es, ∃ y, x = y :: e) ∧
      P'.dirs = P.dirs ∧ P'.contextDir t f.role = some e ∧
      ∀ c w, P'.worker c = some w → P.worker c = some w ∨ w.workerLink = .junk := by
  cases f with
  | worker f =>
    rcases Procfs.umsWorkerProcRegister_cases h.layout.ok h.layout.root.workers_mem t f with
      ⟨n, -, heq⟩ | ⟨dir, Q, info, hdir, rfl, hinfo, -, -, heq⟩
    · cases heq.symm.trans hreg
    · cases heq.symm.trans hreg
      refine ⟨dir, [info], hdir, rfl, ?_, rfl, ?_, fun c w hw => ?_⟩
      · intro x hx
        rw [List.mem_singleton.mp hx, hinfo]
        exact ⟨_, rfl⟩
      · simp [Procfs.contextDir, ProcRegister.role]
      · rcases KernelList.update_some_cases hw with ⟨-, rfl⟩ | ⟨-, hw⟩
        · exact Or.inr rfl
        · exact Or.inl hw
  | scheduler f =>
    rcases Procfs.umsSchedulerProcRegister_cases h.layout.ok h.layout.root.sched_mem t f with
      ⟨n, -, heq⟩ | ⟨dir, Q, info, R, workers, hdir, rfl, hinfo, rfl, hworkers, -, -, heq⟩
    · cases heq.symm.trans hreg
    · cases heq.symm.trans hreg
      refine ⟨dir, [workers, info], hdir, rfl, ?_, rfl, ?_, fun c w hw => Or.inl hw⟩
      · intro x hx
        simp only [List.mem_cons, List.not_mem_nil, or_false] at hx
        rcases hx with rfl | rfl
        · rw [hworkers]
          exact ⟨_, rfl⟩
        · rw [hinfo]
          exact ⟨_, rfl⟩
      · simp [Procfs.contextDir, ProcRegister.role]

theorem register (h : Tidy P) (f : ProcRegister) (hreg : P.register t f = (true, P')) :
    Tidy P' ∧ ¬ P.HasDirs t f.role ∧
      ∀ u q, P'.HasDirs u q ↔ if (u, q) = (t, f.role) then True else P.HasDirs u q := by
  rcases h.layout.register t f with ⟨n, -, heq⟩ | ⟨Q, heq, hlay, hnew, hhas⟩
  · cases heq.symm.trans hreg
  · cases heq.symm.trans hreg
    obtain ⟨e, es, he, hentries, hes, hdirs, -, hlinks⟩ := h.register_eq f hreg
    have hlen : e.length = 3 := by
      rw [he, Procfs.newEntry, List.length_cons, h.length_dirOf]
    have hkeep (u : Pid) (q : Role) (hu : P.HasDirs u q) : P'.HasDirs u q := by
      rw [hhas]
      split
      · trivial
      · exact hu
    refine ⟨⟨hlay, ?_, fun c w x hw hx => ?_⟩, hnew, hhas⟩
    · refine h.named_add hdirs (es ++ [e]) (by simpa using hentries) ?_ hkeep
      intro q u x hx hname
      rcases List.mem_append.mp hx with hx | hx
      · -- what is in the directory is too deep
        obtain ⟨y, hy⟩ := hes _ hx
        have hdir := congrArg List.length (List.cons.inj hy).2
        rw [h.length_dirOf q, hlen] at hdir
        cases hdir
      · rw [List.mem_singleton, he, Procfs.newEntry] at hx
        obtain ⟨rfl, hdir⟩ := List.cons.inj hx
        rw [hhas, if_pos (Prod.ext (ProcName.pid.inj hname).symm (h.dirOf_injective hdir))]
        trivial
    · rcases hlinks c w hw with hold | hjunk
      · exact h.links c w x hold hx
      · rw [hjunk] at hx
        cases hx

/-- A registration that is taken back at once leaves no entry behind. -/
theorem register_unregister (h : Tidy P) (f : ProcRegister) (hreg : P.register t f = (true, P')) :
    (P'.unregister t f.role).tree.entries = P.tree.entries := by
  obtain ⟨h', -, -⟩ := h.register f hreg
  obtain ⟨e, es, he, hentries, hes, -, hctx, -⟩ := h.register_eq f hreg
  have hnew : e ∉ P.tree.entries := by
    have hnd := h'.layout.ok.nodup
    rw [hentries] at hnd
    exact (List.nodup_cons.mp hnd.of_append_right).1
  have hnil : e ≠ [] := by
    rw [he]
    exact List.cons_ne_nil _ _
  rw [(Procfs.unregister_some h'.layout hctx).1, Tree.remove, hentries, List.filter_append,
    List.filter_cons_of_neg (by simp), List.filter_eq_nil_iff.mpr, List.nil_append,
    List.filter_eq_self]
  · intro x hx
    simpa using h.layout.ok.not_suffix_of_notMem e x hnil hnew hx
  · intro x hx
    obtain ⟨y, rfl⟩ := hes x hx
    simp

theorem unregister (h : Tidy P) (t : Pid) (r : Role) : Tidy (P.unregister t r) := by
  by_cases hd : P.HasDirs t r
  · obtain ⟨e, he⟩ := Procfs.hasDirs_iff.mp hd
    obtain ⟨⟨i, hi⟩, hmem⟩ := Procfs.contextDir_at h.layout he
    obtain ⟨htree, hdirs⟩ := Procfs.unregister_some h.layout he
    obtain ⟨hlay, hhas⟩ := h.layout.unregister t r
    refine ⟨hlay, fun q u x hx hname => ?_, fun c w x hw hx => ?_⟩
    · have hdir : (P.unregister t r).dirOf q = P.dirOf q := by
        cases q <;> simp only [Procfs.dirOf, hdirs]
      rw [hdir, htree] at hx
      obtain ⟨hx, hnot⟩ := (Tree.mem_remove _).mp hx
      have hu := h.named q u x hx hname
      rw [hhas]
      split
      · -- the directory of the context itself is the only one of its name
        rename_i hself
        obtain ⟨rfl, rfl⟩ := Prod.mk.inj hself
        rw [hi] at hmem
        have hsame := h.layout.ok.names x _ _ hx hmem hname
        exact hnot (by rw [hi, hsame])
      · exact hu
    · have hold : P.worker c = some w := by
        cases r with
        | worker =>
          rw [Procfs.unregister, (h.layout.unregisterWorker_fields t).1] at hw
          exact (KernelList.of_update_none hw).2
        | scheduler => rwa [Procfs.unregister, (h.layout.unregisterScheduler_fields t).2.1] at hw
      exact h.links c w x hold hx
  · rw [Procfs.unregister_none hd]
    exact h

/-- The members of one worker and of one scheduler change, but both are still there. -/
theorem hasDirs_of_links (P' : Procfs) {p c : Pid} {d d' : SchedulerProcDirs}
    {w w' : WorkerProcDirs} (hd : P.scheduler p = some d) (hw : P.worker c = some w)
    (hs' : P'.scheduler = Function.update P.scheduler p (some d'))
    (hw' : P'.worker = Function.update P.worker c (some w')) (u : Pid) (q : Role) :
    P'.HasDirs u q ↔ P.HasDirs u q := by
  cases q with
  | worker =>
    by_cases huc : u = c
    · simp [Procfs.HasDirs, hw', huc, hw]
    · simp [Procfs.HasDirs, hw', huc]
  | scheduler =>
    by_cases hup : u = p
    · simp [Procfs.HasDirs, hs', hup, hd]
    · simp [Procfs.HasDirs, hs', hup]

theorem registerWorker (h : Tidy P) (p c : Pid) (memory : Bool) :
    Tidy (P.umsSchedulerProcRegisterWorker p c memory).2 ∧
      ∀ u q, (P.umsSchedulerProcRegisterWorker p c memory).2.HasDirs u q ↔ P.HasDirs u q := by
  cases hd : P.scheduler p with
  | none => simpa [Procfs.umsSchedulerProcRegisterWorker, hd] using h
  | some d =>
    cases hw : P.worker c with
    | none => simpa [Procfs.umsSchedulerProcRegisterWorker, hd, hw] using h
    | some w =>
      have hlay := h.layout.registerLink (fun _ => none) p c memory d hd w hw (fun _ _ => rfl)
        (fun _ hq => by cases hq)
      have hsame : P.scheduler = Function.update P.scheduler p (some d) := by
        rw [← hd, Function.update_eq_self]
      rcases P.umsSchedulerProcRegisterWorker_cases p c memory d w hd hw with
        ⟨heq, -⟩ | ⟨e, he, heq, -⟩
      · -- no link: the pointer of the worker is null
        rw [heq] at hlay ⊢
        have hhas := hasDirs_of_links { P with
          worker := Function.update P.worker c (some { w with workerLink := .null }) }
          hd hw hsame rfl
        refine ⟨⟨hlay, ?_, fun b x e hx he => ?_⟩, hhas⟩
        · exact fun q u x hx hname => (hhas u q).mpr (h.named q u x hx hname)
        · rcases KernelList.update_some_cases hx with ⟨-, rfl⟩ | ⟨-, hx⟩
          · cases he
          · exact h.links b x e hx he
      · rw [heq] at hlay ⊢
        -- a link stands deeper than the directories of the contexts, so it is none of them
        have hlen : e.length = 5 := by
          rw [he, Procfs.newEntry, List.length_cons,
            ((h.layout.scheduler p d hd).length h.layout.root).2.2]
        have hhas := hasDirs_of_links { P.withEntry e with
          worker := Function.update P.worker c (some { w with workerLink := .entry e })
          scheduler := Function.update P.scheduler p
            (some { d with nWorkers := d.nWorkers + 1, maxWorkers := d.maxWorkers + 1 }) }
          hd hw rfl rfl
        refine ⟨⟨hlay, ?_, fun b x e' hx he' => ?_⟩, hhas⟩
        · refine h.named_add rfl [e] rfl ?_ fun u q hu => (hhas u q).mpr hu
          intro q u x hx _
          have hlen' := congrArg List.length (List.mem_singleton.mp hx)
          rw [List.length_cons, h.length_dirOf, hlen] at hlen'
          cases hlen'
        · rcases KernelList.update_some_cases hx with ⟨-, rfl⟩ | ⟨-, hx⟩
          · cases he'
            exact hlen
          · exact h.links b x e' hx he'

/-- No directory of a context goes with a link, and none with a pointer to anything else. -/
theorem procRemove (h : Tidy P) (site : RemoveSite) (ptr : EntryPtr)
    (hptr : ∀ e, ptr = .entry e → e.length = 5) :
    Tidy (P.procRemove site ptr) ∧ (P.procRemove site ptr).worker = P.worker ∧
      (P.procRemove site ptr).scheduler = P.scheduler := by
  cases ptr with
  | null => exact ⟨h, rfl, rfl⟩
  | junk => exact ⟨⟨⟨h.layout.ok, h.layout.root, h.layout.below, h.layout.scheduler,
      h.layout.worker, h.layout.link⟩, h.named, h.links⟩, rfl, rfl⟩
  | entry e =>
    have hlen := hptr e rfl
    have hlay : Layout (P.procRemove site (.entry e)) (fun _ => none) := by
      refine ⟨h.layout.ok.remove e, h.layout.root.remove (by omega), ?_, ?_, ?_, ?_⟩
      · exact fun x hx => h.layout.below x ((Tree.mem_remove x).mp hx).1
      · exact fun u x hx => (h.layout.scheduler u x hx).remove h.layout.root fun y hy _ =>
          not_suffix_of_length (by omega)
      · exact fun u x hx => (h.layout.worker u x hx).remove h.layout.root fun y hy _ =>
          not_suffix_of_length (by omega)
      · exact fun u q hu => by cases hu
    refine ⟨⟨hlay, fun q u x hx hname => ?_, h.links⟩, rfl, rfl⟩
    exact h.named q u x ((Tree.mem_remove _).mp hx).1 hname

theorem unregisterWorker (h : Tidy P) (p c : Pid) :
    Tidy (P.umsSchedulerProcUnregisterWorker p c) ∧
      ∀ u q, (P.umsSchedulerProcUnregisterWorker p c).HasDirs u q ↔ P.HasDirs u q := by
  cases hd : P.scheduler p with
  | none => simpa [Procfs.umsSchedulerProcUnregisterWorker, hd] using h
  | some d =>
    cases hw : P.worker c with
    | none => simpa [Procfs.umsSchedulerProcUnregisterWorker, hd, hw] using h
    | some w =>
      obtain ⟨hQ, hQw, hQs⟩ := h.procRemove .unregisterWorker w.workerLink
        (fun e he => h.links c w e hw he)
      simp only [Procfs.umsSchedulerProcUnregisterWorker, hd, hw]
      generalize P.procRemove .unregisterWorker w.workerLink = Q at hQ hQw hQs ⊢
      rw [← hQs] at hd ⊢
      rw [← hQw] at hw
      have hsame : Function.update Q.worker c (some w) = Q.worker := by
        rw [← hw, Function.update_eq_self]
      have hlay := hQ.layout.setLinks (fun _ => none) p c d { d with
        nWorkers := Procfs.decrement d.nWorkers
        maxWorkers := if Procfs.decrement d.nWorkers = 0 then 0 else d.maxWorkers } hd rfl w hw
        w.workerLink (fun _ _ => rfl) (fun _ hq => by cases hq)
      rw [hsame] at hlay
      have hhas := hasDirs_of_links { Q with
        scheduler := Function.update Q.scheduler p (some { d with
          nWorkers := Procfs.decrement d.nWorkers
          maxWorkers := if Procfs.decrement d.nWorkers = 0 then 0 else d.maxWorkers })
        underflow := P.underflow || d.nWorkers = 0 } hd hw rfl hsame.symm
      have hhas' (u : Pid) (q : Role) : Q.HasDirs u q ↔ P.HasDirs u q := by
        cases q <;> simp only [Procfs.HasDirs, hQw, hQs]
      refine ⟨⟨⟨hlay.ok, hlay.root, hlay.below, hlay.scheduler, hlay.worker, hlay.link⟩, ?_,
        hQ.links⟩, fun u q => (hhas u q).trans (hhas' u q)⟩
      exact fun q u x hx hname => (hhas u q).mpr (hQ.named q u x hx hname)

/-- A device that has just been opened. -/
theorem opened (ok : P.tree.Ok) (hempty : P.tree.entries = []) (hs : ∀ t, P.scheduler t = none)
    (hw : ∀ t, P.worker t = none) (pid : Pid) (f : DirsInit)
    (h : P.umsProcDirsInit pid f = (true, P')) :
    Tidy P' ∧ ∀ t r, ¬ P'.HasDirs t r := by
  rcases Layout.opened ok hempty hs hw pid f with
    ⟨n, -, heq⟩ | ⟨Q, heq, hQs, hQw, -, -, hentries, hlay⟩
  · cases heq.symm.trans h
  · cases heq.symm.trans h
    have hnone (t : Pid) (r : Role) : ¬ P'.HasDirs t r := by
      cases r with
      | worker => simp [Procfs.HasDirs, hQw, hw]
      | scheduler => simp [Procfs.HasDirs, hQs, hs]
    obtain ⟨hpid, hsched, hworkers⟩ := hlay.root.length
    have hdir (r : Role) : (P'.dirOf r).length = 2 := by
      cases r with
      | worker => exact hworkers
      | scheduler => exact hsched
    refine ⟨⟨hlay, fun r t x hx _ => ?_, fun c w e hc => ?_⟩, hnone⟩
    · -- the three directories are not deep enough
      have hdeep : ∀ e ∈ P'.tree.entries, e.length ≤ 2 := by
        simp only [hentries, List.forall_mem_cons, List.not_mem_nil, false_implies, implies_true,
          and_true]
        omega
      have hlen := hdeep _ hx
      rw [List.length_cons, hdir] at hlen
      omega
    · rw [hQw, hw] at hc
      cases hc

end Tidy

end LinuxUms
