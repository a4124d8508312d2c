import LinuxUms.Teardown

/-! The links in the directories of schedulers. They are to show which workers a scheduler has
dequeued and nobody has executed since, and `n_workers` is to count them. -/
namespace LinuxUms

open KernelList ProcTree

/-- The links and counts go with the owners. -/
structure Mirror (P : Procfs) (owner : Pid → Option Pid) : Prop where
  count : ∀ p d, P.scheduler p = some d → d.nWorkers = (P.tree.children d.workersDir).length
  linked : ∀ w p, owner w = some p → ∃ x e, P.worker w = some x ∧ x.workerLink = .entry e
  target : ∀ p d e, P.scheduler p = some d → e ∈ P.tree.children d.workersDir →
    ∃ w x, owner w = some p ∧ P.worker w = some x ∧ x.workerLink = .entry e
  depth : ∀ e ∈ P.tree.entries, e.length ≤ 5
  underflow : P.underflow = false

namespace Mirror

variable {P : Procfs} {owner : Pid → Option Pid} {t : Pid}

/-- The directories with links stay as they are, and new ones are empty. -/
theorem frame (m : Mirror P owner) (P' : Procfs)
    (hs : ∀ p d, P'.scheduler p = some d →
      (P.scheduler p = some d ∧
        P'.tree.children d.workersDir = P.tree.children d.workersDir) ∨
      (d.nWorkers = 0 ∧ P'.tree.children d.workersDir = []))
    (hw : ∀ w x, owner w ≠ none → P.worker w = some x → P'.worker w = some x)
    (hE : ∀ e ∈ P'.tree.entries, e ∈ P.tree.entries ∨ e.length ≤ 5)
    (hu : P'.underflow = P.underflow) : Mirror P' owner := by
  refine ⟨fun p d hd => ?_, fun w p hp => ?_, fun p d e hd he => ?_, fun e he => ?_,
    hu.trans m.underflow⟩
  · rcases hs p d hd with ⟨hd, hc⟩ | ⟨hn, hc⟩
    · rw [hc]
      exact m.count p d hd
    · rw [hc, hn]
      rfl
  · obtain ⟨x, e, hx, he⟩ := m.linked w p hp
    exact ⟨x, e, hw w x (by simp [hp]) hx, he⟩
  · rcases hs p d hd with ⟨hd, hc⟩ | ⟨-, hc⟩
    · rw [hc] at he
      obtain ⟨w, x, hp, hx, hxe⟩ := m.target p d e hd he
      exact ⟨w, x, hp, hw w x (by simp [hp]) hx, hxe⟩
    · rw [hc] at he
      cases he
  · rcases hE e he with he | he
    · exact m.depth e he
    · exact he

theorem skip (m : Mirror P owner) (n : ℕ) : Mirror (P.skip n) owner :=
  m.frame _ (fun _ _ hd => Or.inl ⟨hd, rfl⟩) (fun _ _ _ hx => hx) (fun _ he => Or.inl he) rfl

/-- A new entry that stands in no directory with links. -/
theorem children_add {e : ProcPath} {d : ProcPath} (h : e.tail.length ≠ d.length)
    (E : List ProcPath) (n k : ℕ) :
    (⟨e :: E, n⟩ : Tree ProcName (Option Pid)).children d =
      (⟨E, k⟩ : Tree ProcName (Option Pid)).children d := by
  rw [Tree.children_cons_ne]
  · rfl
  · rintro rfl
    exact h rfl

/-- The directories of a worker come, with or without the worker. -/
theorem addWorker (m : Mirror P owner) (lay : Layout P owner) (d : WorkerProcDirs) (n : ℕ)
    (lay' : WorkerAt P.dirs (d.workerInfoDir :: d.workerDir :: P.tree.entries) t d)
    (W : Pid → Option WorkerProcDirs)
    (hW : ∀ w x, owner w ≠ none → P.worker w = some x → W w = some x) :
    Mirror { P with
      tree := ⟨d.workerInfoDir :: d.workerDir :: P.tree.entries, n⟩
      worker := W } owner := by
  obtain ⟨hdir, hinfo⟩ := lay'.length lay.root
  refine m.frame _ (fun p x hx => Or.inl ⟨hx, ?_⟩) hW (fun e he => ?_) rfl
  · have hlen := ((lay.scheduler p x hx).length lay.root).2.2
    rw [children_add (by simp; omega) _ _ n, children_add (by simp; omega) _ _ P.tree.next]
  · rcases List.mem_cons.mp he with rfl | he
    · exact Or.inr (by omega)
    rcases List.mem_cons.mp he with rfl | he
    · exact Or.inr (by omega)
    · exact Or.inl he

/-- The directories of a scheduler come, with or without the scheduler. -/
theorem addScheduler (m : Mirror P owner) (lay : Layout P owner) (d : SchedulerProcDirs) (n : ℕ)
    (lay' : SchedulerAt P.dirs
      (d.workersDir :: d.schedulerInfoDir :: d.schedulerDir :: P.tree.entries) t d)
    (hn : d.nWorkers = 0) (hnew : d.workersDir ∉ P.tree.entries)
    (S : Pid → Option SchedulerProcDirs)
    (hS : ∀ p x, S p = some x → x = d ∨ P.scheduler p = some x) :
    Mirror { P with
      tree := ⟨d.workersDir :: d.schedulerInfoDir :: d.schedulerDir :: P.tree.entries, n⟩
      scheduler := S } owner := by
  obtain ⟨hdir, hinfo, hworkers⟩ := lay'.length lay.root
  have hsame (x : ProcPath) (hx : x.length = 4) :
      (⟨d.workersDir :: d.schedulerInfoDir :: d.schedulerDir :: P.tree.entries, n⟩ :
        Tree ProcName (Option Pid)).children x = P.tree.children x := by
    rw [children_add (by simp; omega) _ _ n, children_add (by simp; omega) _ _ n,
      children_add (by simp; omega) _ _ P.tree.next]
  refine m.frame _ (fun p x hx => ?_) (fun _ _ _ hx => hx) (fun e he => ?_) rfl
  · rcases hS p x hx with rfl | hx
    · refine Or.inr ⟨hn, ?_⟩
      rw [hsame _ hworkers, List.eq_nil_iff_forall_not_mem]
      intro e he
      obtain ⟨he, y, rfl⟩ := (Tree.mem_children e).mp he
      rcases lay.ok.parent y _ he with h | h
      · rw [h] at hworkers
        cases hworkers
      · exact hnew h
    · exact Or.inl ⟨hx, hsame _ ((lay.scheduler p x hx).length lay.root).2.2⟩
  · rcases List.mem_cons.mp he with rfl | he
    · exact Or.inr (by omega)
    rcases List.mem_cons.mp he with rfl | he
    · exact Or.inr (by omega)
    rcases List.mem_cons.mp he with rfl | he
    · exact Or.inr (by omega)
    · exact Or.inl he

theorem unregisterWorker (m : Mirror P owner) (lay : Layout P owner) (t : Pid)
    (ht : owner t = none) : Mirror (P.umsWorkerProcUnregister t) owner := by
  cases hw : P.worker t with
  | none => simpa [Procfs.umsWorkerProcUnregister, hw] using m
  | some x =>
    have hat := lay.worker t x hw
    rw [Procfs.umsWorkerProcUnregister_eq x hw hat]
    refine m.frame _ (fun p d hd => Or.inl ⟨hd, ?_⟩) (fun w y ho hy => ?_) (fun e he => ?_) rfl
    · have hdat := lay.scheduler p d hd
      refine Tree.children_remove_eq fun e he => ?_
      obtain ⟨-, y, rfl⟩ := (Tree.mem_children e).mp he
      exact not_suffix_of_ne (hdat.suffix.2.trans (List.suffix_cons _ _))
        ((hat.length lay.root).1.trans (hdat.length lay.root).1.symm)
        (hdat.ne_worker hat lay.root).symm
    · have hwt : w ≠ t := by
        rintro rfl
        exact ho ht
      exact (Function.update_of_ne hwt _ _).trans hy
    · exact Or.inl ((Tree.mem_remove e).mp he).1

theorem unregisterScheduler (m : Mirror P owner) (lay : Layout P owner) (t : Pid) :
    Mirror (P.umsSchedulerProcUnregister t) owner := by
  cases hs : P.scheduler t with
  | none => simpa [Procfs.umsSchedulerProcUnregister, hs] using m
  | some x =>
    have hat := lay.scheduler t x hs
    rw [Procfs.umsSchedulerProcUnregister_eq x hs hat]
    refine m.frame _ (fun p d hd => ?_) (fun _ _ _ hy => hy) (fun e he => ?_) rfl
    · obtain ⟨hpt, hd⟩ := of_update_none hd
      have hdat := lay.scheduler p d hd
      refine Or.inl ⟨hd, Tree.children_remove_eq fun e he => ?_⟩
      obtain ⟨-, y, rfl⟩ := (Tree.mem_children e).mp he
      exact not_suffix_of_ne (hdat.suffix.2.trans (List.suffix_cons _ _))
        ((hat.length lay.root).1.trans (hdat.length lay.root).1.symm)
        (hat.ne_scheduler hdat (Ne.symm hpt))
    · exact Or.inl ((Tree.mem_remove e).mp he).1

/-- Two schedulers have different directories for their links. -/
theorem workersDir_ne (lay : Layout P owner) (p q : Pid) (d d' : SchedulerProcDirs)
    (hd : P.scheduler p = some d) (hd' : P.scheduler q = some d') (hne : p ≠ q) :
    d.workersDir ≠ d'.workersDir := by
  intro he
  have hat := lay.scheduler p d hd
  have hat' := lay.scheduler q d' hd'
  obtain ⟨i, hi⟩ := hat.workers
  obtain ⟨j, hj⟩ := hat'.workers
  rw [hi, hj] at he
  exact hat.ne_scheduler hat' hne (List.cons.inj he).2

/-- A link that cannot be made, for a worker that nobody owns. -/
theorem failLink (m : Mirror P owner) (c : Pid) (hc : owner c = none) (x : WorkerProcDirs) :
    Mirror { P with worker := Function.update P.worker c (some x) } owner := by
  refine m.frame _ (fun _ _ hd => Or.inl ⟨hd, rfl⟩) (fun w y ho hy => ?_)
    (fun _ he => Or.inl he) rfl
  have hwc : w ≠ c := by
    rintro rfl
    exact ho hc
  exact (Function.update_of_ne hwc _ _).trans hy

/-- A link is made for a worker that nobody owned. -/
theorem makeLink (m : Mirror P owner) (lay : Layout P owner) (p c : Pid) (hc : owner c = none)
    (d : SchedulerProcDirs) (hd : P.scheduler p = some d) (w : WorkerProcDirs)
    (name : ProcName) (e : ProcPath) (he : e = P.newEntry d.workersDir name (some c))
    (max : ℕ) :
    Mirror { P.withEntry e with
      worker := Function.update P.worker c (some { w with workerLink := .entry e })
      scheduler := Function.update P.scheduler p
        (some { d with nWorkers := d.nWorkers + 1, maxWorkers := max }) }
      (Function.update owner c (some p)) := by
  have hlen := ((lay.scheduler p d hd).length lay.root).2.2
  have hself : (P.withEntry e).tree.children d.workersDir =
      e :: P.tree.children d.workersDir := by
    rw [he]
    exact Tree.children_cons_self _ _ _
  -- the new link stands in the directory of `p` and in no other
  have hother (q : Pid) (d' : SchedulerProcDirs) (hd' : P.scheduler q = some d') (hne : q ≠ p) :
      (P.withEntry e).tree.children d'.workersDir = P.tree.children d'.workersDir := by
    refine Tree.children_cons_ne _ _ _ ?_
    rw [he]
    exact workersDir_ne lay p q d d' hd hd' hne.symm
  have hold (u : Pid) (q : Pid) (hu : owner u = some q) : u ≠ c := by
    rintro rfl
    rw [hc] at hu
    cases hu
  refine ⟨fun q d' hd' => ?_, fun u q hu => ?_, fun q d' e' hd' he' => ?_, fun e' he' => ?_,
    m.underflow⟩
  · rcases update_some_cases hd' with ⟨rfl, rfl⟩ | ⟨hne, hd'⟩
    · simp only [hself, List.length_cons, m.count q d hd]
    · simp only [hother q d' hd' hne, m.count q d' hd']
  · rcases update_some_cases hu with ⟨rfl, -⟩ | ⟨huc, hu⟩
    · exact ⟨_, e, Function.update_self _ _ _, rfl⟩
    · obtain ⟨x, e', hx, hxe⟩ := m.linked u q hu
      exact ⟨x, e', (Function.update_of_ne huc _ _).trans hx, hxe⟩
  · have hkeep (w' : Pid) (x : WorkerProcDirs) (hp : owner w' = some q)
        (hx : P.worker w' = some x) (hxe : x.workerLink = .entry e') :
        ∃ w' x, Function.update owner c (some p) w' = some q ∧
          Function.update P.worker c (some { w with workerLink := .entry e }) w' = some x ∧
          x.workerLink = .entry e' := by
      have hne := hold w' q hp
      exact ⟨w', x, (Function.update_of_ne hne _ _).trans hp,
        (Function.update_of_ne hne _ _).trans hx, hxe⟩
    rcases update_some_cases hd' with ⟨rfl, rfl⟩ | ⟨hne, hd'⟩
    · simp only [hself] at he'
      rcases List.mem_cons.mp he' with rfl | he'
      · exact ⟨c, _, Function.update_self _ _ _, Function.update_self _ _ _, rfl⟩
      · obtain ⟨w', x, hp, hx, hxe⟩ := m.target q d e' hd he'
        exact hkeep w' x hp hx hxe
    · simp only [hother q d' hd' hne] at he'
      obtain ⟨w', x, hp, hx, hxe⟩ := m.target q d' e' hd' he'
      exact hkeep w' x hp hx hxe
  · rcases List.mem_cons.mp he' with rfl | he'
    · rw [he]
      simp [Procfs.newEntry, hlen]
    · exact m.depth e' he'

/-- The link of a worker stands in the directory of its owner. -/
theorem isLink (lay : Layout P owner) (w p : Pid) (ho : owner w = some p) (x : WorkerProcDirs)
    (hx : P.worker w = some x) (e : ProcPath) (he : x.workerLink = .entry e) :
    ∃ d, P.scheduler p = some d ∧ IsLink d w e ∧ e ∈ P.tree.children d.workersDir := by
  obtain ⟨x', d, hx', hd, hl⟩ := lay.link w p ho
  obtain rfl := Option.some.inj (hx.symm.trans hx')
  rcases hl with hnull | ⟨e', hmem, he', hlink⟩
  · rw [hnull] at he
    cases he
  · obtain rfl := EntryPtr.entry.inj (he'.symm.trans he)
    obtain ⟨i, n, hi⟩ := hlink
    exact ⟨d, hd, ⟨i, n, hi⟩, (Tree.mem_children _).mpr ⟨hmem, _, hi⟩⟩

/-- The owner executes its worker: one link goes, and one is taken off the count. -/
theorem unregisterLink (m : Mirror P owner) (lay : Layout P owner) (w : Pid)
    (ho : owner w = some t) :
    Mirror (P.umsSchedulerProcUnregisterWorker t w) (Function.update owner w none) := by
  obtain ⟨x, d, T, hx, hd, hun, heq, -⟩ := lay.unregisterLink t w ho
  obtain ⟨x', e, hx', he⟩ := m.linked w t ho
  obtain rfl := Option.some.inj (hx.symm.trans hx')
  obtain ⟨hmem, hlink, rfl⟩ : e ∈ P.tree.entries ∧ IsLink d w e ∧ T = P.tree.remove e := by
    rcases hun with ⟨hnull, -⟩ | ⟨e', hmem, he', hlink, rfl⟩
    · rw [hnull] at he
      cases he
    · obtain rfl := EntryPtr.entry.inj (he'.symm.trans he)
      exact ⟨hmem, hlink, rfl⟩
  have hlen := hlink.length (lay.scheduler t d hd) lay.root
  obtain ⟨i, n, hi⟩ := hlink
  have hchild : e ∈ P.tree.children d.workersDir := (Tree.mem_children _).mpr ⟨hmem, _, hi⟩
  have hself : (P.tree.remove e).children d.workersDir =
      (P.tree.children d.workersDir).erase e := by
    rw [hi]
    exact Tree.children_remove_self _ lay.ok.nodup
  have hother (q : Pid) (d' : SchedulerProcDirs) (hd' : P.scheduler q = some d') (hne : q ≠ t) :
      (P.tree.remove e).children d'.workersDir = P.tree.children d'.workersDir := by
    refine Tree.children_remove_eq fun e' he' => ?_
    obtain ⟨-, y, rfl⟩ := (Tree.mem_children e').mp he'
    have hlen' := ((lay.scheduler q d' hd').length lay.root).2.2
    refine not_suffix_of_ne (List.suffix_refl _) (by simp [hlen, hlen']) ?_
    rw [hi]
    exact fun h => workersDir_ne lay t q d d' hd hd' hne.symm (List.cons.inj h).2
  -- the count is not zero, since the link that goes was counted
  have hpos : 0 < d.nWorkers := by
    rw [m.count t d hd]
    exact List.length_pos_of_mem hchild
  have hdec : Procfs.decrement d.nWorkers = d.nWorkers - 1 := if_neg hpos.ne'
  rw [heq]
  refine ⟨fun q d' hd' => ?_, fun u q hu => ?_, fun q d' e' hd' he' => ?_, fun e' he' => ?_, ?_⟩
  · rcases update_some_cases hd' with ⟨rfl, rfl⟩ | ⟨hne, hd'⟩
    · simp only [hself, List.length_erase_of_mem hchild, ← m.count q d hd]
      exact hdec
    · simp only [hother q d' hd' hne, m.count q d' hd']
  · obtain ⟨-, hu⟩ := of_update_none hu
    exact m.linked u q hu
  · have hkeep (u : Pid) (y : WorkerProcDirs) (hp : owner u = some q)
        (hy : P.worker u = some y) (hye : y.workerLink = .entry e') (hne : e' ≠ e) :
        ∃ u y, Function.update owner w none u = some q ∧ P.worker u = some y ∧
          y.workerLink = .entry e' := by
      refine ⟨u, y, (Function.update_of_ne ?_ _ _).trans hp, hy, hye⟩
      rintro rfl
      obtain rfl := Option.some.inj (hx.symm.trans hy)
      exact hne (EntryPtr.entry.inj (hye.symm.trans he))
    rcases update_some_cases hd' with ⟨rfl, rfl⟩ | ⟨hne, hd''⟩
    · simp only [hself] at he'
      obtain ⟨hne, he'⟩ := (List.Nodup.mem_erase_iff (lay.ok.nodup.filter _)).mp he'
      obtain ⟨u, y, hp, hy, hye⟩ := m.target q d e' hd he'
      exact hkeep u y hp hy hye hne
    · -- an entry in the directory of another scheduler is not the removed one
      simp only [hother q d' hd'' hne] at he'
      obtain ⟨u, y, hp, hy, hye⟩ := m.target q d' e' hd'' he'
      refine hkeep u y hp hy hye fun hee => ?_
      obtain ⟨-, z, hz⟩ := (Tree.mem_children _).mp he'
      rw [hee, hi] at hz
      exact workersDir_ne lay t q d d' hd hd'' hne.symm (List.cons.inj hz).2
  · exact m.depth e' ((Tree.mem_remove e').mp he').1
  · simp [m.underflow, hpos.ne']

end Mirror

/-- Every link of the batch can be made. -/
def linksMade (P : Procfs) (p : Pid) : List (Pid × Bool) → Bool
  | [] => true
  | x :: cs =>
    (P.umsSchedulerProcRegisterWorker p x.1 x.2).1 &&
      linksMade (P.umsSchedulerProcRegisterWorker p x.1 x.2).2 p cs

theorem Mirror.registerWorkers {P : Procfs} {owner : Pid → Option Pid} (m : Mirror P owner)
    (lay : Layout P owner) (p : Pid) (hp : P.scheduler p ≠ none) (cs : List (Pid × Bool))
    (hnd : (cs.map Prod.fst).Nodup) (hcs : ∀ x ∈ cs, P.worker x.1 ≠ none)
    (hown : ∀ x ∈ cs, owner x.1 = none) (hmade : linksMade P p cs = true)
    (owner' : Pid → Option Pid)
    (howner : ∀ u, owner' u = if u ∈ cs.map Prod.fst then some p else owner u) :
    Mirror (P.registerWorkers p cs) owner' := by
  -- one link after the other: each leaves its worker to `p`, and the next finds it so
  induction cs generalizing P owner with
  | nil =>
    obtain rfl : owner' = owner := funext fun u => by simpa using howner u
    exact m
  | cons x cs ih =>
    obtain ⟨d, hd⟩ := Option.ne_none_iff_exists'.mp hp
    obtain ⟨w, hw⟩ := Option.ne_none_iff_exists'.mp (hcs x List.mem_cons_self)
    have htab := Procfs.registerWorker_tables p x.1 x.2 d hd w hw
    obtain ⟨hfirst, hrest⟩ := Bool.and_eq_true_iff.mp hmade
    obtain ⟨hx, hnd⟩ := List.nodup_cons.mp hnd
    have hlay := lay.registerLink (Function.update owner x.1 (some p)) p x.1 x.2 d hd w hw
      (fun u hu => Function.update_of_ne hu _ _) (fun q hq => by simpa using hq.symm)
    have hm : Mirror (P.umsSchedulerProcRegisterWorker p x.1 x.2).2
        (Function.update owner x.1 (some p)) := by
      rcases P.umsSchedulerProcRegisterWorker_cases p x.1 x.2 d w hd hw with
        ⟨h, -⟩ | ⟨e, he, h, -, -⟩
      · rw [h] at hfirst
        cases hfirst
      · rw [h]
        exact m.makeLink lay p x.1 (hown x List.mem_cons_self) d hd w _ e he _
    refine ih hm hlay (fun h => hp ((htab.scheduler p).mp h)) hnd
      (fun y hy h => hcs y (List.mem_cons_of_mem _ hy) ((htab.worker y.1).mp h))
      (fun y hy => ?_) hrest (fun u => ?_)
    · rw [Function.update_of_ne, hown y (List.mem_cons_of_mem _ hy)]
      intro h
      exact hx (h ▸ List.mem_map_of_mem hy)
    · rw [howner u]
      by_cases hu : u = x.1
      · subst hu
        simp [hx]
      · simp only [List.map_cons, List.mem_cons, hu, false_or, Function.update_of_ne hu]

/-- What is asked of a dequeue from a list with these members: once the first link could be
made, so can the others, and the result is returned. -/
def BatchLinked (P : Procfs) (t : Pid) (copied : Bool) (luck : CallLuck) : List Pid → Prop
  | [] => True
  | c :: ds =>
    (P.umsSchedulerProcRegisterWorker t c luck.first).1 = true → copied = true ∧
      linksMade P t ((c, luck.first) :: ds.zip luck.rest) = true

instance (P : Procfs) (t : Pid) (copied : Bool) (luck : CallLuck) :
    DecidablePred (BatchLinked P t copied luck)
  | [] => inferInstanceAs (Decidable True)
  | _ :: _ => inferInstanceAs (Decidable (_ → _ ∧ _))

/-- The documented protocol, with dequeues that make all links or none. -/
def LinksOk (s : OpenDevice) : DevAct → Prop
  | .call (.dqcontext t l copied) luck =>
    BatchLinked s.proc t copied luck (((s.io.rings (.head l)).getD []).filterMap Node.worker)
  | act => Documented s act

instance (s : OpenDevice) : DecidablePred (LinksOk s)
  | .call (.dqcontext t l copied) luck => inferInstanceAs (Decidable (BatchLinked s.proc t copied
      luck (((s.io.rings (.head l)).getD []).filterMap Node.worker)))
  | .call (.exec t w) luck => inferInstanceAs (Decidable (Documented s (.call (.exec t w) luck)))
  | .call (.create t l) luck =>
    inferInstanceAs (Decidable (Documented s (.call (.create t l) luck)))
  | .call (.delete t l) luck =>
    inferInstanceAs (Decidable (Documented s (.call (.delete t l) luck)))
  | .call (.enterWorker t l node zero) luck =>
    inferInstanceAs (Decidable (Documented s (.call (.enterWorker t l node zero) luck)))
  | .call (.enterScheduler t l) luck =>
    inferInstanceAs (Decidable (Documented s (.call (.enterScheduler t l) luck)))
  | .call (.nextContext t c) luck =>
    inferInstanceAs (Decidable (Documented s (.call (.nextContext t c) luck)))
  | .call (.yield t args) luck =>
    inferInstanceAs (Decidable (Documented s (.call (.yield t args) luck)))
  | .call (.exit t) luck => inferInstanceAs (Decidable (Documented s (.call (.exit t) luck)))
  | .call (.dqevent t copied) luck =>
    inferInstanceAs (Decidable (Documented s (.call (.dqevent t copied) luck)))
  | .signal t => inferInstanceAs (Decidable (Documented s (.signal t)))
  | .openDev pid dirs tables =>
    inferInstanceAs (Decidable (Documented s (.openDev pid dirs tables)))
  | .release ws ss => inferInstanceAs (Decidable (Documented s (.release ws ss)))

theorem LinksOk.documented {s : OpenDevice} {act : DevAct} (h : LinksOk s act) :
    Documented s act := by
  match act with
  | .call (.dqcontext t l copied) luck => exact trivial
  | .call (.exec _ _) _ | .call (.create _ _) _ | .call (.delete _ _) _
  | .call (.enterWorker _ _ _ _) _ | .call (.enterScheduler _ _) _ | .call (.nextContext _ _) _
  | .call (.yield _ _) _ | .call (.exit _) _ | .call (.dqevent _ _) _ | .signal _ | .openDev _ _ _
  | .release _ _ => exact h

namespace OpenDevice

variable {s s' : OpenDevice} {t : Pid}

theorem enterWorker_mirror (hi : s.OpenInv) (m : Mirror s.proc s.owner) (l : ListId)
    (node : Links Node) (zero : Bool) (luck : CallLuck)
    (h : s.enterUmsWorkerMode t (.enterWorker t l node zero) luck = some s') :
    Mirror s'.proc s'.owner := by
  unfold enterUmsWorkerMode at h
  rcases hi.layout.registerWorker t luck.worker with
    ⟨n, -, hreg⟩ | ⟨n, d, hnone, hreg, -, hlay⟩
  · rw [hreg] at h
    obtain rfl := Option.some.inj h
    exact m.skip n
  · rw [hreg] at h
    have hat := hlay.worker t d (Function.update_self _ _ _)
    simp only at h
    split at h
    · obtain rfl := Option.some.inj h
      have hsame : Function.update (Function.update s.proc.worker t (some d)) t none =
          s.proc.worker := by
        rw [Function.update_idem, ← hnone, Function.update_eq_self]
      simp only [hsame]
      exact m.addWorker hi.layout d n hat _ (fun _ _ _ hx => hx)
    · obtain ⟨io, -, rfl⟩ := Option.map_eq_some_iff.mp h
      refine m.addWorker hi.layout d n hat _ (fun w x _ hx => ?_)
      have hwt : w ≠ t := by
        rintro rfl
        rw [hnone] at hx
        cases hx
      exact (Function.update_of_ne hwt _ _).trans hx

theorem enterScheduler_mirror (hi : s.OpenInv) (m : Mirror s.proc s.owner) (l : ListId)
    (luck : CallLuck) (h : s.enterUmsSchedulerMode t (.enterScheduler t l) luck = some s') :
    Mirror s'.proc s'.owner := by
  unfold enterUmsSchedulerMode at h
  rcases hi.layout.registerScheduler t luck.scheduler with
    ⟨n, -, hreg⟩ | ⟨n, d, hnone, hzero, hnew, hreg, -, hlay⟩
  · rw [hreg] at h
    obtain rfl := Option.some.inj h
    exact m.skip n
  · rw [hreg] at h
    have hat := hlay.scheduler t d (Function.update_self _ _ _)
    have hentered := m.addScheduler hi.layout d n hat hzero hnew
      (Function.update s.proc.scheduler t (some d)) (fun p x hx => by
        rcases update_some_cases hx with ⟨-, rfl⟩ | ⟨-, hx⟩
        · exact Or.inl rfl
        · exact Or.inr hx)
    simp only at h
    split at h
    · obtain rfl := Option.some.inj h
      have hsame : Function.update (Function.update s.proc.scheduler t (some d)) t none =
          s.proc.scheduler := by
        rw [Function.update_idem, ← hnone, Function.update_eq_self]
      simp only [hsame]
      exact m.addScheduler hi.layout d n hat hzero hnew _ (fun _ _ hx => Or.inr hx)
    split at h
    · obtain rfl := Option.some.inj h
      exact hentered.unregisterScheduler hlay t
    · obtain ⟨io, -, rfl⟩ := Option.map_eq_some_iff.mp h
      exact hentered

/-- A dequeue makes all links and hands over the batch, or it does neither. -/
theorem dqcontext_mirror (hi : s.OpenInv) (m : Mirror s.proc s.owner) (l : ListId)
    (copied : Bool) (luck : CallLuck) (hok : LinksOk s (.call (.dqcontext t l copied) luck))
    (h : s.umsComplistDqcontext t l copied luck = some s') : Mirror s'.proc s'.owner := by
  rcases hi.dequeue_cases l copied luck h with
    ⟨hno, h⟩ | ⟨c, ds, linked, cs, hl, hs, hq, hfirst, hcs, h⟩
  · -- an unknown list, or a caller that is no scheduler
    obtain ⟨io, -, rfl⟩ := Option.map_eq_some_iff.mp h
    have hrefused : ¬ ((s.io.list l).isSome = true ∧ (s.io.scheduler t).isSome = true) := by
      rcases hno with h | h <;> simp [h]
    cases copied with
    | true => simpa only [nextOwner, hrefused, if_false] using m
    | false => exact m
  · obtain ⟨io, -, rfl⟩ := Option.map_eq_some_iff.mp h
    have hworker (x : Pid) (hx : x ∈ c :: ds) : s.proc.worker x ≠ none := by
      obtain ⟨w, v, he, hv, -⟩ := hi.io.rings.queue l _ hq (.context x) (List.mem_map_of_mem hx)
      rw [Node.context.injEq] at he
      rw [ne_eq, hi.worker, he, hv]
      simp
    have hnone (x : Pid) (hx : x ∈ c :: ds) : s.owner x = none :=
      hi.queued_none l _ hq x (List.mem_map_of_mem hx)
    have hsched : s.proc.scheduler t ≠ none := fun he => hs ((hi.scheduler t).mp he)
    have hmembers : ((s.io.rings (.head l)).getD []).filterMap Node.worker = c :: ds := by
      simp [hq, List.filterMap_map, Function.comp_def, Node.worker]
    have hbatch : BatchLinked s.proc t copied luck (c :: ds) := hmembers ▸ hok
    rcases hcs with ⟨rfl, hlen, rfl⟩ | ⟨rfl, rfl⟩
    · -- every link is made, and the members are those of the list
      obtain ⟨rfl, hmade⟩ := hbatch hfirst
      have hfst : ((c, luck.first) :: ds.zip luck.rest).map Prod.fst = c :: ds := by
        rw [List.map_cons, List.map_fst_zip hlen.ge]
      have hmem (x : Pid × Bool) (hx : x ∈ (c, luck.first) :: ds.zip luck.rest) :
          x.1 ∈ c :: ds := hfst ▸ List.mem_map_of_mem hx
      have hnd : (c :: ds).Nodup :=
        (List.nodup_cons.mp (hi.io.rings.family.nodup _ _ hq)).2.of_map _
      refine m.registerWorkers hi.layout t hsched _ (hfst ▸ hnd) (fun x hx => hworker _ (hmem x hx))
        (fun x hx => hnone _ (hmem x hx)) hmade _ (fun u => ?_)
      rw [hfst]
      refine (nextOwner_dqcontext l _ hl hs hq u).trans ?_
      simp only [List.mem_map, Node.context.injEq, exists_eq_right]
    · -- no link, and nobody is handed over
      obtain ⟨d, hd⟩ := Option.ne_none_iff_exists'.mp hsched
      obtain ⟨w, hw⟩ := Option.ne_none_iff_exists'.mp (hworker c List.mem_cons_self)
      rcases s.proc.umsSchedulerProcRegisterWorker_cases t c luck.first d w hd hw with
        ⟨heq, -⟩ | ⟨e, -, heq, -⟩
      · simp only [Procfs.registerWorkers, List.foldl_cons, List.foldl_nil, heq]
        exact m.failLink c (hnone c List.mem_cons_self) _
      · rw [heq] at hfirst
        cases hfirst

theorem exec_mirror (hi : s.OpenInv) (m : Mirror s.proc s.owner) (w : Pid) (luck : CallLuck)
    (hok : Documented s (.call (.exec t w) luck)) (h : s.execUmsContext t w = some s') :
    Mirror s'.proc s'.owner := by
  unfold execUmsContext at h
  split at h
  · rename_i hsome
    obtain ⟨io, -, rfl⟩ := Option.map_eq_some_iff.mp h
    have hm := m.unregisterLink hi.layout w (hok.2 hsome.1 hsome.2)
    simpa only [nextOwner, hsome, and_self, if_true] using hm
  · rename_i hno
    obtain ⟨io, -, rfl⟩ := Option.map_eq_some_iff.mp h
    simpa only [nextOwner, hno, if_false] using m

theorem exit_mirror (hi : s.OpenInv) (m : Mirror s.proc s.owner)
    (h : s.umsWorkerEnd t = some s') : Mirror s'.proc s'.owner := by
  obtain ⟨s₁, h₁, rfl⟩ := Option.map_eq_some_iff.mp h
  obtain ⟨io, hio, rfl⟩ := Option.map_eq_some_iff.mp h₁
  split
  · rename_i hgone
    refine m.unregisterWorker hi.layout t (hi.owned.none_of_not_idle t fun x hx => ?_)
    obtain ⟨-, heff⟩ := hi.io.effect (.exit t) trivial io hio
    cases heff with
    | exitRefused _ hw => simp [hw] at hgone
    | exited _ p n k y o hw hp hy hl hr =>
      obtain rfl := Option.some.inj (hw.symm.trans hx)
      simp
  · exact m

theorem call_mirror (hi : s.OpenInv) (m : Mirror s.proc s.owner) (act : IoAct) (luck : CallLuck)
    (hok : LinksOk s (.call act luck)) (h : s.umsDevIoctl act luck = some s') :
    Mirror s'.proc s'.owner := by
  have hplain (hown : nextOwner s.io s.owner act = s.owner) (h : s.ioctl act = some s') :
      Mirror s'.proc s'.owner := by
    obtain ⟨io, -, rfl⟩ := Option.map_eq_some_iff.mp h
    simpa only [hown] using m
  unfold umsDevIoctl at h
  split at h
  · cases h
  · cases act with
    | enterWorker t l node zero => exact enterWorker_mirror hi m l node zero luck h
    | enterScheduler t l => exact enterScheduler_mirror hi m l luck h
    | dqcontext t l copied => exact dqcontext_mirror hi m l copied luck hok h
    | exec t w => exact exec_mirror hi m w luck hok h
    | exit t => exact exit_mirror hi m h
    | create t l => exact hplain rfl h
    | delete t l => exact hplain rfl h
    | nextContext t c => exact hplain rfl h
    | yield t args => exact hplain rfl h
    | dqevent t copied => exact hplain rfl h

theorem procRemove_underflow (P : Procfs) (site : RemoveSite) (ptr : EntryPtr) :
    (P.procRemove site ptr).underflow = P.underflow := by
  cases ptr <;> rfl

theorem foldl_underflow (f : Procfs → Pid → Procfs)
    (hf : ∀ P t, (f P t).underflow = P.underflow) (ts : List Pid) (P : Procfs) :
    (ts.foldl f P).underflow = P.underflow := by
  induction ts generalizing P with
  | nil => rfl
  | cons t ts ih => exact (ih (f P t)).trans (hf P t)

theorem umsDevRelease_underflow (ws ss : List Pid) :
    (s.umsDevRelease ws ss).proc.underflow = s.proc.underflow := by
  have hworker (P : Procfs) (t : Pid) :
      (P.umsWorkerProcUnregister t).underflow = P.underflow := by
    unfold Procfs.umsWorkerProcUnregister
    split <;> simp [procRemove_underflow]
  have hscheduler (P : Procfs) (t : Pid) :
      (P.umsSchedulerProcUnregister t).underflow = P.underflow := by
    unfold Procfs.umsSchedulerProcUnregister
    split <;> simp [procRemove_underflow]
  simp only [umsDevRelease, Procfs.umsProcDirsDestroy, procRemove_underflow,
    foldl_underflow _ hscheduler, foldl_underflow _ hworker]

/-- Nobody owns anything on a device that has nobody registered. -/
theorem mirror_empty (P : Procfs) (owner : Pid → Option Pid) (hs : ∀ t, P.scheduler t = none)
    (ho : ∀ w, owner w = none) (hE : ∀ e ∈ P.tree.entries, e.length ≤ 5)
    (hu : P.underflow = false) : Mirror P owner :=
  ⟨fun p d hd => by simp [hs] at hd, fun w p hp => by simp [ho] at hp,
    fun p d e hd => by simp [hs] at hd, hE, hu⟩

theorem ClosedInv.mirror (hcl : s.ClosedInv) (hu : s.proc.underflow = false) :
    Mirror s.proc s.owner :=
  mirror_empty _ _ hcl.scheduler hcl.owner (by simp [hcl.entries]) hu

theorem open_mirror (hcl : s.ClosedInv) (m : Mirror s.proc s.owner) (pid : Pid) (dirs : DirsInit)
    (tables : Bool) :
    Mirror (s.umsDevOpen pid dirs tables).proc (s.umsDevOpen pid dirs tables).owner := by
  unfold umsDevOpen
  rcases Layout.opened hcl.ok hcl.entries hcl.scheduler hcl.worker pid dirs with
    ⟨n, hn, h⟩ | ⟨P, h, hs, -, -, hu, hE, hlay⟩
  · rw [h]
    exact m.skip n
  · rw [h]
    have hs' (t : Pid) : P.scheduler t = none := by rw [hs, hcl.scheduler]
    have hu' : P.underflow = false := hu.trans m.underflow
    cases tables with
    | true =>
      obtain ⟨hpid, hsched, hworkers⟩ := hlay.root.length
      refine mirror_empty P _ hs' (fun _ => rfl) (fun e he => ?_) hu'
      rw [hE] at he
      simp only [List.mem_cons, List.not_mem_nil, or_false] at he
      rcases he with rfl | rfl | rfl <;> omega
    | false =>
      refine mirror_empty _ _ ?_ hcl.owner ?_ ?_ <;>
        simp [Procfs.umsProcDirsDestroy_eq hlay.root hlay.below, hs', hu']

theorem step_mirror (hi : s.Inv) (m : Mirror s.proc s.owner) (act : DevAct) (hok : LinksOk s act)
    (h : s.step act = some s') : Mirror s'.proc s'.owner := by
  have hi' := hi.step act hok.documented h
  cases moves_of_step h with
  | openDev pid dirs tables hc => exact open_mirror (hi.closed hc) m pid dirs tables
  | call act luck s' ho h => exact call_mirror (hi.opened ho) m act luck hok h
  | signal t => exact m
  | release ws ss =>
    exact (hi'.closed rfl).mirror ((umsDevRelease_underflow ws ss).trans m.underflow)

theorem reach_mirror (hr : Transition.Reach step LinksOk init s) :
    s.Inv ∧ Mirror s.proc s.owner :=
  hr.invariant (fun s => s.Inv ∧ Mirror s.proc s.owner)
    ⟨inv_init, inv_init.closed rfl |>.mirror rfl⟩
    (fun _ act _ hi hok h => ⟨hi.1.step act hok.documented h, step_mirror hi.1 hi.2 act hok h⟩)

/-- The worker that a link leads to. -/
def linkTarget (e : ProcPath) : Option Pid := e.head?.bind (·.data)

theorem linkTarget_of_isLink {d : SchedulerProcDirs} {w : Pid} {e : ProcPath} (h : IsLink d w e) :
    linkTarget e = some w := by
  obtain ⟨i, n, rfl⟩ := h
  rfl

/-- The links of a scheduler are those of the workers that it has dequeued and nobody has
executed since. -/
structure Mirrors (s : OpenDevice) : Prop where
  count : ∀ p d, s.proc.scheduler p = some d →
    d.nWorkers = (s.proc.tree.children d.workersDir).length
  target : ∀ p d e, s.proc.scheduler p = some d → e ∈ s.proc.tree.children d.workersDir →
    ∃ w, linkTarget e = some w ∧ s.owner w = some p
  unique : ∀ w p, s.owner w = some p → ∃ d, s.proc.scheduler p = some d ∧
    ∃! e, e ∈ s.proc.tree.children d.workersDir ∧ linkTarget e = some w
  underflow : s.proc.underflow = false

theorem Mirrors.of_mirror (m : Mirror s.proc s.owner) (lay : Layout s.proc s.owner) :
    s.Mirrors := by
  have htarget (p : Pid) (d : SchedulerProcDirs) (e : ProcPath)
      (hd : s.proc.scheduler p = some d) (he : e ∈ s.proc.tree.children d.workersDir) :
      ∃ w x, linkTarget e = some w ∧ s.owner w = some p ∧ s.proc.worker w = some x ∧
        x.workerLink = .entry e := by
    obtain ⟨w, x, ho, hx, hxe⟩ := m.target p d e hd he
    obtain ⟨d', -, hlink, -⟩ := Mirror.isLink lay w p ho x hx e hxe
    exact ⟨w, x, linkTarget_of_isLink hlink, ho, hx, hxe⟩
  refine ⟨m.count, fun p d e hd he => ?_, fun w p ho => ?_, m.underflow⟩
  · obtain ⟨w, -, hw, ho, -⟩ := htarget p d e hd he
    exact ⟨w, hw, ho⟩
  · obtain ⟨x, e, hx, hxe⟩ := m.linked w p ho
    obtain ⟨d, hd, hlink, he⟩ := Mirror.isLink lay w p ho x hx e hxe
    refine ⟨d, hd, e, ⟨he, linkTarget_of_isLink hlink⟩, fun e' he' => ?_⟩
    -- the pointer in the worker leads to both
    obtain ⟨w', x', hw', -, hx', hxe'⟩ := htarget p d e' hd he'.1
    obtain rfl := Option.some.inj (hw'.symm.trans he'.2)
    obtain rfl := Option.some.inj (hx.symm.trans hx')
    exact EntryPtr.entry.inj (hxe'.symm.trans hxe)

theorem Mirrors.of_closed (hcl : s.ClosedInv) (hu : s.proc.underflow = false) : s.Mirrors :=
  ⟨fun p d hd => by simp [hcl.scheduler] at hd, fun p d e hd => by simp [hcl.scheduler] at hd,
    fun w p ho => by simp [hcl.owner] at ho, hu⟩

/-- What is gone after an execution is the one link of the worker. -/
theorem exec_removes (hi : s.OpenInv) (m : Mirror s.proc s.owner) (w : Pid) (luck : CallLuck)
    (hok : Documented s (.call (.exec t w) luck)) (h : s.execUmsContext t w = some s') :
    ∃ link, linkTarget link = some w ∧
      ∀ e ∈ s.proc.tree.entries, e ∉ s'.proc.tree.entries → e = link := by
  unfold execUmsContext at h
  split at h
  · rename_i hsome
    obtain ⟨io, -, rfl⟩ := Option.map_eq_some_iff.mp h
    have ho := hok.2 hsome.1 hsome.2
    obtain ⟨x, d, T, hx, hd, hun, heq, -⟩ := hi.layout.unregisterLink t w ho
    obtain ⟨x', link, hx', hxe⟩ := m.linked w t ho
    obtain rfl := Option.some.inj (hx.symm.trans hx')
    rcases hun with ⟨hnull, -⟩ | ⟨e, hmem, hxe', hlink, rfl⟩
    · rw [hnull] at hxe
      cases hxe
    · have hlen := hlink.length (hi.layout.scheduler t d hd) hi.layout.root
      refine ⟨e, linkTarget_of_isLink hlink, fun e' he' hgone => ?_⟩
      simp only [heq, Tree.mem_remove, he', true_and, not_not] at hgone
      -- nothing is deeper than a link
      have hdepth := m.depth e' he'
      exact (hgone.eq_of_length_le (by omega)).symm
  · obtain ⟨io, -, rfl⟩ := Option.map_eq_some_iff.mp h
    exact ⟨[⟨0, .workers, some w⟩], rfl, fun e he hne => absurd he hne⟩

/-- In every run in which schedulers execute what they have dequeued, a dequeue makes all its links
or not even the first, and no signal ends a suspension, the links mirror the ownership, and an
execution removes no more than the link of its worker. -/
theorem links_mirror_ownership (s : OpenDevice) (hr : Transition.Reach step LinksOk init s) :
    s.Mirrors ∧ ∀ t w luck s', LinksOk s (.call (.exec t w) luck) →
      s.step (.call (.exec t w) luck) = some s' →
      ∃ link, linkTarget link = some w ∧
        ∀ e ∈ s.proc.tree.entries, e ∉ s'.proc.tree.entries → e = link := by
  obtain ⟨hi, m⟩ := reach_mirror hr
  constructor
  · cases ho : s.opened with
    | true => exact .of_mirror m (hi.opened ho).layout
    | false => exact .of_closed (hi.closed ho) m.underflow
  · intro t w luck s' hok h
    simp only [step] at h
    split at h
    · rename_i ho
      unfold umsDevIoctl at h
      split at h
      · cases h
      · exact exec_removes (hi.opened ho) m w luck hok h
    · cases h

/-- Scheduler 10 has dequeued both workers and executes the first. -/
theorem links_mirror_ownership_two :
    ∃ s s', Transition.Reach step LinksOk init s ∧ s.owner 2 = some 10 ∧ s.Mirrors ∧
      s.step (.call (.exec 10 1) {}) = some s' ∧
      ∃ link, linkTarget link = some 1 ∧
        ∀ e ∈ s.proc.tree.entries, e ∉ s'.proc.tree.entries → e = link := by
  obtain ⟨s, hr, ho, hok, hstep⟩ := Transition.Reach.exists_of_run step LinksOk init
    ([.openDev 7 {} true] ++ twoWorkers.map (fun act => .call act {}) ++
      [.call (.dqcontext 10 1 true) ⟨{}, {}, true, true, true, [true]⟩,
        .call (.nextContext 10 1) {}])
    (fun s => s.owner 2 = some 10 ∧ LinksOk s (.call (.exec 10 1) {}) ∧
      (s.step (.call (.exec 10 1) {})).isSome = true) (by decide +kernel)
  obtain ⟨s', h⟩ := Option.isSome_iff_exists.mp hstep
  obtain ⟨hm, hexec⟩ := links_mirror_ownership s hr
  exact ⟨s, s', hr, ho, hm, h, hexec 10 1 {} s' hok h⟩

/-- Scheduler 11 executes a worker that 10 has dequeued: the link of 10 is gone and still
counted, and the count of 11 wraps around. And if the second link of a batch cannot be made, the
scheduler of the documented protocol counts down twice what it has counted up once. -/
theorem links_drift :
    (∃ s, Transition.Reach step (fun _ _ => True) init s ∧ s.proc.underflow = true ∧
      (∃ d, s.proc.scheduler 10 = some d ∧ d.nWorkers = 2 ∧
        (s.proc.tree.children d.workersDir).length = 1) ∧
      ∃ d, s.proc.scheduler 11 = some d ∧ d.nWorkers = 2 ^ 64 - 1) ∧
    ∃ s, Transition.Reach step Documented init s ∧ s.proc.underflow = true := by
  constructor
  · obtain ⟨s, hr, hu, h10, h11⟩ := Transition.Reach.exists_of_run step (fun _ _ => True) init
      ([.openDev 7 {} true] ++ twoWorkers.map (fun act => .call act {}) ++
        [.call (.dqcontext 10 1 true) ⟨{}, {}, true, true, true, [true]⟩,
          .call (.nextContext 10 1) {}, .call (.exec 11 1) {}])
      (fun s => s.proc.underflow = true ∧
        (s.proc.scheduler 10).any (fun d => d.nWorkers = 2 ∧
          (s.proc.tree.children d.workersDir).length = 1) = true ∧
        (s.proc.scheduler 11).any (fun d => d.nWorkers = 2 ^ 64 - 1) = true) (by decide +kernel)
    refine ⟨s, hr, hu, ?_, ?_⟩
    · simpa [Option.any_eq_true] using h10
    · simpa [Option.any_eq_true] using h11
  · exact Transition.Reach.exists_of_run step Documented init
      ([.openDev 7 {} true] ++ twoWorkers.map (fun act => .call act {}) ++
        [.call (.dqcontext 10 1 true) ⟨{}, {}, true, true, true, [false]⟩,
          .call (.nextContext 10 1) {}, .call (.exec 10 1) {}, .call (.exit 1) {},
          .call (.exec 10 2) {}])
      (fun s => s.proc.underflow = true) (by decide +kernel)

end OpenDevice

end LinuxUms
