import LinuxUms.OpenDevice
import LinuxUms.Transition

/-! Opening and closing. Whatever was registered while the device was open is found by the
removals of `ums_dev_release`; only `ums_proc_dirs_destroy` removes a directory and then two that
were below it. -/
namespace LinuxUms

open ProcTree

namespace OpenDevice

variable {s s' : OpenDevice}

/-- Nothing is left of a closed device. -/
structure ClosedInv (s : OpenDevice) : Prop where
  ok : s.proc.tree.Ok
  entries : s.proc.tree.entries = []
  worker : ∀ t, s.proc.worker t = none
  scheduler : ∀ t, s.proc.scheduler t = none
  owner : ∀ w, s.owner w = none

/-- The removals of `sched_dir` and `workers_dir` in `ums_proc_dirs_destroy`. -/
def OnlyDestroyed (bad : List (RemoveSite × EntryPtr)) : Prop :=
  ∀ x ∈ bad, x.1 = .procDirsDestroy ∧
    ∃ y d, x.2 = .entry (y :: d) ∧ (y.name = .schedulers ∨ y.name = .workers)

structure Inv (s : OpenDevice) : Prop where
  opened : s.opened = true → s.OpenInv
  closed : s.opened = false → s.ClosedInv
  bad : OnlyDestroyed s.proc.bad

theorem inv_init : init.Inv :=
  ⟨by simp [init], fun _ => ⟨Tree.ok_empty, rfl, fun _ => rfl, fun _ => rfl, fun _ => rfl⟩,
    fun _ hx => by simp [init, Procfs.init] at hx⟩

/-- The end of a device whose directories are in order. -/
theorem destroy_inv (P : Procfs) (lay : Layout P (fun _ => none)) (hw : ∀ t, P.worker t = none)
    (hs : ∀ t, P.scheduler t = none) (hbad : OnlyDestroyed P.bad) (s : OpenDevice)
    (hproc : s.proc = P.umsProcDirsDestroy) (hown : ∀ w, s.owner w = none)
    (hclosed : s.opened = false) : s.Inv := by
  rw [Procfs.umsProcDirsDestroy_eq lay.root lay.below] at hproc
  refine ⟨by simp [hclosed], fun _ => ⟨?_, by rw [hproc], by simpa [hproc] using hw,
    by simpa [hproc] using hs, hown⟩, ?_⟩
  · rw [hproc]
    exact ⟨by simp, by simp, by simp, by simp, by simp⟩
  · rw [hproc]
    intro x hx
    obtain ⟨i, hsched⟩ := lay.root.sched
    obtain ⟨j, hworkers⟩ := lay.root.workers
    rcases List.mem_cons.mp hx with rfl | hx
    · exact ⟨rfl, _, _, by rw [hworkers], Or.inr rfl⟩
    rcases List.mem_cons.mp hx with rfl | hx
    · exact ⟨rfl, _, _, by rw [hsched], Or.inl rfl⟩
    · exact hbad x hx

theorem Inv.open (hi : s.Inv) (hc : s.opened = false) (pid : Pid) (dirs : DirsInit)
    (tables : Bool) : (s.umsDevOpen pid dirs tables).Inv := by
  have hcl := hi.closed hc
  unfold umsDevOpen
  rcases Layout.opened hcl.ok hcl.entries hcl.scheduler hcl.worker pid dirs with
    ⟨n, hn, h⟩ | ⟨P, h, hs, hw, hbad, -, -, hlay⟩
  · rw [h]
    exact ⟨by simp [hc], fun _ => ⟨hcl.ok.mono n hn, hcl.entries, hcl.worker, hcl.scheduler,
      hcl.owner⟩, hi.bad⟩
  · rw [h]
    have hw' (t : Pid) : P.worker t = none := by rw [hw, hcl.worker]
    have hs' (t : Pid) : P.scheduler t = none := by rw [hs, hcl.scheduler]
    cases tables with
    | true =>
      refine ⟨fun _ => ⟨IoState.inv_init, hlay, fun _ _ h => by simp [init] at h, ?_, ?_, ?_, ?_,
        List.nodup_nil⟩, by simp, by simpa [hbad] using hi.bad⟩ <;>
        simp [init, IoState.init, hw', hs']
    | false => exact destroy_inv P hlay hw' hs' (hbad ▸ hi.bad) _ rfl hcl.owner hc

/-- The first loop of `ums_dev_release`. -/
theorem unregister_workers (P : Procfs) (lay : Layout P (fun _ => none)) (ws : List Pid) :
    ∃ Q, ws.foldl Procfs.umsWorkerProcUnregister P = Q ∧ Layout Q (fun _ => none) ∧
      (∀ t, Q.worker t ≠ none → t ∉ ws ∧ P.worker t ≠ none) ∧ Q.scheduler = P.scheduler ∧
      Q.bad = P.bad := by
  induction ws generalizing P with
  | nil => exact ⟨P, rfl, lay, fun t ht => ⟨by simp, ht⟩, rfl, rfl⟩
  | cons w ws ih =>
    obtain ⟨hw, hs, hb⟩ := lay.unregisterWorker_fields w
    obtain ⟨Q, hQ, hlay, hnone, hs', hb'⟩ := ih _ (lay.unregisterWorker w rfl)
    refine ⟨Q, hQ, hlay, fun t ht => ?_, hs'.trans hs, hb'.trans hb⟩
    obtain ⟨hmem, hold⟩ := hnone t ht
    rw [hw] at hold
    have htw : t ≠ w := by
      rintro rfl
      simp at hold
    rw [Function.update_of_ne htw] at hold
    exact ⟨by simp [htw, hmem], hold⟩

/-- The second loop. -/
theorem unregister_schedulers (P : Procfs) (lay : Layout P (fun _ => none)) (ss : List Pid) :
    ∃ Q, ss.foldl Procfs.umsSchedulerProcUnregister P = Q ∧ Layout Q (fun _ => none) ∧
      (∀ t, Q.scheduler t ≠ none → t ∉ ss ∧ P.scheduler t ≠ none) ∧ Q.worker = P.worker ∧
      Q.bad = P.bad := by
  induction ss generalizing P with
  | nil => exact ⟨P, rfl, lay, fun t ht => ⟨by simp, ht⟩, rfl, rfl⟩
  | cons p ss ih =>
    obtain ⟨hs, hw, hb⟩ := lay.unregisterScheduler_fields p
    obtain ⟨Q, hQ, hlay, hnone, hw', hb'⟩ := ih _ (lay.unregisterScheduler p (by simp))
    refine ⟨Q, hQ, hlay, fun t ht => ?_, hw'.trans hw, hb'.trans hb⟩
    obtain ⟨hmem, hold⟩ := hnone t ht
    rw [hs] at hold
    have htp : t ≠ p := by
      rintro rfl
      simp at hold
    rw [Function.update_of_ne htp] at hold
    exact ⟨by simp [htp, hmem], hold⟩

/-- Both loops find what they remove, and leave nobody registered. -/
theorem OpenInv.unregister (hop : s.OpenInv) (ws ss : List Pid) (hws : ws.Perm s.workers)
    (hss : ss.Perm s.schedulers) :
    ∃ P, (s.umsDevRelease ws ss).proc = P.umsProcDirsDestroy ∧ Layout P (fun _ => none) ∧
      (∀ t, P.worker t = none) ∧ (∀ t, P.scheduler t = none) ∧ P.bad = s.proc.bad := by
  have lay : Layout s.proc (fun _ => none) :=
    ⟨hop.layout.ok, hop.layout.root, hop.layout.below, hop.layout.scheduler, hop.layout.worker,
      fun _ _ h => by cases h⟩
  obtain ⟨Q, hQ, hlay, hw, hs, hb⟩ := unregister_workers s.proc lay ws
  obtain ⟨R, hR, hlay', hs', hw', hb'⟩ := unregister_schedulers Q hlay ss
  refine ⟨R, by rw [umsDevRelease, hQ, hR], hlay', fun t => ?_, fun t => ?_, hb'.trans hb⟩
  · by_contra hne
    rw [hw'] at hne
    obtain ⟨hmem, hold⟩ := hw t hne
    exact hmem (hws.mem_iff.mpr ((hop.workers t).mpr (mt (hop.worker t).mpr hold)))
  · by_contra hne
    obtain ⟨hmem, hold⟩ := hs' t hne
    rw [hs] at hold
    exact hmem (hss.mem_iff.mpr ((hop.schedulers t).mpr (mt (hop.scheduler t).mpr hold)))

theorem Inv.release (hi : s.Inv) (ho : s.opened = true) (ws ss : List Pid)
    (hws : ws.Perm s.workers) (hss : ss.Perm s.schedulers) : (s.umsDevRelease ws ss).Inv := by
  obtain ⟨P, hproc, hlay, hw, hs, hbad⟩ := (hi.opened ho).unregister ws ss hws hss
  exact destroy_inv P hlay hw hs (hbad ▸ hi.bad) _ hproc (fun _ => rfl) rfl

theorem Inv.step (hi : s.Inv) (act : DevAct) (hok : Documented s act)
    (h : s.step act = some s') : s'.Inv := by
  cases moves_of_step h with
  | openDev pid dirs tables hc => exact hi.open hc pid dirs tables
  | call act luck s' ho h =>
    obtain ⟨hop, hbad, hopened⟩ := (hi.opened ho).call act luck hok h
    exact ⟨fun _ => hop, by simp [hopened, ho], hbad ▸ hi.bad⟩
  | signal t =>
    rw [IoState.signal_of_awake hok]
    exact hi
  | release ws ss ho hws hss => exact hi.release ho ws ss hws hss

/-- The step comes to `ums_proc_dirs_destroy`. -/
def Destroys (s : OpenDevice) : DevAct → Prop
  | .openDev pid dirs tables => (s.proc.umsProcDirsInit pid dirs).1 = true ∧ tables = false
  | .release _ _ => True
  | _ => False

/-- An open does not get past `ums_proc_dirs_init`. -/
def FailsEarly (s : OpenDevice) : DevAct → Prop
  | .openDev pid dirs _ => (s.proc.umsProcDirsInit pid dirs).1 = false
  | _ => True

instance (s : OpenDevice) : DecidablePred (FailsEarly s)
  | .openDev pid dirs _ => inferInstanceAs (Decidable ((s.proc.umsProcDirsInit pid dirs).1 = false))
  | .call _ _ | .signal _ | .release _ _ => inferInstanceAs (Decidable True)

/-- `ums_proc_dirs_destroy` finds `pid_dir`, and with it gone not the two that were below. -/
theorem destroy_bad {P : Procfs} (lay : Layout P (fun _ => none)) :
    P.umsProcDirsDestroy.bad ≠ [] := by
  rw [Procfs.umsProcDirsDestroy_eq lay.root lay.below]
  exact List.cons_ne_nil _ _

/-- What an open leaves, by the point that it gets to. -/
theorem ClosedInv.open_cases (hcl : s.ClosedInv) (hc : s.opened = false) (pid : Pid)
    (dirs : DirsInit) (tables : Bool) :
    ((s.proc.umsProcDirsInit pid dirs).1 = false ∧
      (s.umsDevOpen pid dirs tables).proc.bad = s.proc.bad ∧
      (s.umsDevOpen pid dirs tables).opened = false) ∨
    ((s.proc.umsProcDirsInit pid dirs).1 = true ∧ tables = true ∧
      (s.umsDevOpen pid dirs tables).proc.bad = s.proc.bad ∧
      (s.umsDevOpen pid dirs tables).opened = true) ∨
    ((s.proc.umsProcDirsInit pid dirs).1 = true ∧ tables = false ∧
      (s.umsDevOpen pid dirs tables).proc.bad ≠ []) := by
  unfold umsDevOpen
  rcases Layout.opened hcl.ok hcl.entries hcl.scheduler hcl.worker pid dirs with
    ⟨n, -, h⟩ | ⟨P, h, -, -, hbad, -, -, hlay⟩
  · rw [h]
    exact Or.inl ⟨rfl, rfl, hc⟩
  · rw [h]
    cases tables with
    | true => exact Or.inr (Or.inl ⟨rfl, rfl, hbad, rfl⟩)
    | false => exact Or.inr (Or.inr ⟨rfl, rfl, destroy_bad hlay⟩)

/-- A step makes a bad removal exactly if it comes to `ums_proc_dirs_destroy`, and a closed device
without one has seen no open that got past `ums_proc_dirs_init`. -/
theorem Inv.bad_iff (hi : s.Inv) (act : DevAct) (hok : Documented s act)
    (h : s.step act = some s') :
    (s'.proc.bad = [] ↔ s.proc.bad = [] ∧ ¬ Destroys s act) ∧
    (s'.opened = false ∧ s'.proc.bad = [] ↔
      (s.opened = false ∧ s.proc.bad = []) ∧ FailsEarly s act) := by
  cases moves_of_step h with
  | openDev pid dirs tables hc =>
    rcases (hi.closed hc).open_cases hc pid dirs tables with
      ⟨hinit, hbad, hopen⟩ | ⟨hinit, rfl, hbad, hopen⟩ | ⟨hinit, rfl, hbad⟩
    · simp [Destroys, FailsEarly, hinit, hbad, hopen, hc]
    · simp [Destroys, FailsEarly, hinit, hbad, hopen]
    · simp [Destroys, FailsEarly, hinit, hbad]
  | call act luck s' ho h =>
    obtain ⟨-, hbad, hopened⟩ := (hi.opened ho).call act luck hok h
    simp [Destroys, FailsEarly, hbad, hopened, ho]
  | signal t => simp [Destroys, FailsEarly]
  | release ws ss ho hws hss =>
    obtain ⟨P, hproc, hlay, -⟩ := (hi.opened ho).unregister ws ss hws hss
    have hbad := destroy_bad hlay
    rw [← hproc] at hbad
    simp [Destroys, hbad, ho]

/-- In every run that follows the protocol, with opens and enters that may fail anywhere, nothing is
left in procfs once the device is closed. Every removal has found its entry exactly if the run has
not come to `ums_proc_dirs_destroy`; up to a closed device these are the runs in which no open gets
past `ums_proc_dirs_init`. No removals are bad but those of `sched_dir` and `workers_dir` there. -/
theorem teardown_sound (s : OpenDevice) (hr : Transition.Reach step Documented init s) :
    (s.opened = false → s.proc.tree.entries = []) ∧
    (s.opened = false ∧ s.proc.bad = [] ↔
      Transition.Reach step (fun s act => Documented s act ∧ FailsEarly s act) init s) ∧
    (s.proc.bad = [] ↔
      Transition.Reach step (fun s act => Documented s act ∧ ¬ Destroys s act) init s) ∧
    ∀ x ∈ s.proc.bad, x.1 = .procDirsDestroy ∧
      ∃ y d, x.2 = .entry (y :: d) ∧ (y.name = .schedulers ∨ y.name = .workers) := by
  have hi : s.Inv := hr.invariant Inv inv_init (fun _ act s' hi hok h => hi.step act hok h)
  refine ⟨fun hc => (hi.closed hc).entries, ?_, ?_, hi.bad⟩
  · exact hr.iff_restricted Inv (fun s => s.opened = false ∧ s.proc.bad = []) FailsEarly inv_init
      ⟨rfl, rfl⟩ fun _ act _ hi hok h => ⟨hi.step act hok h, (hi.bad_iff act hok h).2⟩
  · exact hr.iff_restricted Inv (fun s => s.proc.bad = []) (fun s act => ¬ Destroys s act) inv_init
      rfl fun _ act _ hi hok h => ⟨hi.step act hok h, (hi.bad_iff act hok h).1⟩

/-- Two opens fail in `ums_proc_dirs_init`, the second behind its first directory. In another run a
worker is dequeued, executed and ends, another is left in the list, and the device is closed. -/
theorem teardown_sound_run :
    (∃ s, Transition.Reach step (fun s act => Documented s act ∧ FailsEarly s act) init s ∧
      s.proc.tree.next = 1 ∧ s.proc.bad = [] ∧ s.proc.tree.entries = []) ∧
    ∃ s, Transition.Reach step Documented init s ∧ s.opened = false ∧
      (∀ x ∈ s.proc.bad, x.1 = .procDirsDestroy ∧
        ∃ y d, x.2 = .entry (y :: d) ∧ (y.name = .schedulers ∨ y.name = .workers)) ∧
      s.proc.tree.entries = [] := by
  constructor
  · obtain ⟨s, hr, hs⟩ := Transition.Reach.exists_of_run step
      (fun s act => Documented s act ∧ FailsEarly s act) init
      [.openDev 7 { pidDir := false } true, .openDev 7 { schedDir := false } true]
      (fun s => s.proc.tree.next = 1) (by decide +kernel)
    obtain ⟨hempty, hearly, -⟩ := teardown_sound s (hr.mono fun _ _ hok => hok.1)
    obtain ⟨hc, hbad⟩ := hearly.mpr hr
    exact ⟨s, hr, hs, hbad, hempty hc⟩
  · obtain ⟨s, hr, hs⟩ := Transition.Reach.exists_of_run step Documented init
      ([.openDev 7 {} true] ++ twoWorkers.map (fun act => .call act {}) ++
        [.call (.dqcontext 10 1 true) ⟨{}, {}, true, true, true, [true]⟩,
          .call (.nextContext 10 1) {}, .call (.exec 10 1) {}, .call (.exit 1) {},
          .release [2] [11, 10]])
      (fun s => s.opened = false) (by decide +kernel)
    obtain ⟨hempty, -, -, hbad⟩ := teardown_sound s hr
    exact ⟨s, hr, hs, hbad, hempty hs⟩

/-- `ums_proc_dirs_destroy` removes `pid_dir` first, so that opening and closing the device is
enough to call `proc_remove` on two entries that are gone. -/
theorem destroy_removes_freed :
    ∃ s, Transition.Reach step Documented init s ∧ s.opened = false ∧
      s.proc.bad = [(.procDirsDestroy, .entry s.proc.dirs.workersDir),
        (.procDirsDestroy, .entry s.proc.dirs.schedDir)] :=
  Transition.Reach.exists_of_run step Documented init
    [.openDev 7 {} true, .release [] []] _ (by decide +kernel)

end OpenDevice

end LinuxUms
