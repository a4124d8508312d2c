import LinuxUms.Slab
import LinuxUms.Teardown

/-! The keys of the two hash tables. An insertion does not look for duplicates, so that only the
order of the stages of an enter and of an end keeps the keys apart: the directory in procfs, whose
name is the pid, comes before the entry and goes before it. Threads take these stages
independently of each other. -/
namespace LinuxUms

open ProcTree

/-- Where a thread is between `ums_worker_create` and the return of its enter, or in
`ums_worker_destroy`, and the same for schedulers. -/
inductive Stage where
  | registered
  | inserted
  | leaving
  | unregistered
  deriving DecidableEq

/-- The allocations of a registration in procfs. -/
inductive ProcRegister where
  | worker (f : WorkerRegister)
  | scheduler (f : SchedulerRegister)

def ProcRegister.role : ProcRegister → Role
  | .worker _ => .worker
  | .scheduler _ => .scheduler

namespace Procfs

variable (P : Procfs)

def register (t : Pid) : ProcRegister → Bool × Procfs
  | .worker f => P.umsWorkerProcRegister t f
  | .scheduler f => P.umsSchedulerProcRegister t f

def unregister (t : Pid) : Role → Procfs
  | .worker => P.umsWorkerProcUnregister t
  | .scheduler => P.umsSchedulerProcUnregister t

/-- The context is freed while its directories stay. -/
def forget (t : Pid) : Role → Procfs
  | .worker => { P with worker := Function.update P.worker t none }
  | .scheduler => { P with scheduler := Function.update P.scheduler t none }

/-- A context of this role has directories. -/
def HasDirs (t : Pid) : Role → Prop
  | .worker => P.worker t ≠ none
  | .scheduler => P.scheduler t ≠ none

end Procfs

/-- `table r` are the keys of the entries in a table, and `inside` says which threads are inside
an enter or an end. -/
structure Tables where
  proc : Procfs
  table : Role → List Pid
  inside : List (Pid × Role × Stage)
  opened : Bool

inductive TableAct where
  | openDev (pid : Pid) (dirs : DirsInit)
  | register (t : Pid) (f : ProcRegister)
  | insert (t : Pid) (ok : Bool)
  -- the lookup of the list and, for a scheduler, the allocation of the startup event
  | find (t : Pid) (ok : Bool)
  -- `ums_worker_end`; `ok` says that there is memory for the event and that a parent is set
  | exit (t : Pid) (ok : Bool)
  | unregister (t : Pid)
  | remove (t : Pid)
  | release (ws ss : List Pid)

namespace Tables

def init : Tables where
  proc := .init
  table _ := []
  inside := []
  opened := false

variable (s : Tables)

/-- Thread `t` goes on to the next stage. -/
def goTo (t : Pid) (r : Role) (stage : Stage) : Tables :=
  { s with inside := (t, r, stage) :: Keyed.remove s.inside t }

/-- The call of thread `t` returns. -/
def ret (t : Pid) : Tables := { s with inside := Keyed.remove s.inside t }

def step : TableAct → Option Tables
  | .openDev pid dirs =>
    if s.opened then none
    else
      match s.proc.umsProcDirsInit pid dirs with
      | (false, P) => some { s with proc := P }
      | (true, P) => some { init with proc := P, opened := true }
  | .register t f =>
    if s.opened ∧ Keyed.get s.inside t = none then
      match s.proc.register t f with
      | (false, P) => some { s with proc := P }
      | (true, P) => some ({ s with proc := P }.goTo t f.role .registered)
    else none
  | .insert t ok =>
    match Keyed.get s.inside t with
    | some (r, .registered) =>
      if ok then
        some ({ s with table := Function.update s.table r (t :: s.table r) }.goTo t r .inserted)
      else some ({ s with proc := s.proc.forget t r }.ret t)
    | _ => none
  | .find t ok =>
    match Keyed.get s.inside t with
    | some (r, .inserted) => if ok then some (s.ret t) else some (s.goTo t r .leaving)
    | _ => none
  | .exit t ok =>
    if s.opened ∧ Keyed.get s.inside t = none then
      if t ∈ s.table .worker ∧ ok then some (s.goTo t .worker .leaving) else some s
    else none
  | .unregister t =>
    match Keyed.get s.inside t with
    | some (r, .leaving) =>
      some ({ s with proc := s.proc.unregister t r }.goTo t r .unregistered)
    | _ => none
  | .remove t =>
    match Keyed.get s.inside t with
    | some (r, .unregistered) =>
      some ({ s with table := Function.update s.table r ((s.table r).erase t) }.ret t)
    | _ => none
  -- the device is released when no call is in progress
  | .release ws ss =>
    if s.opened ∧ s.inside = [] ∧ ws.isPerm (s.table .worker) ∧ ss.isPerm (s.table .scheduler) then
      some { init with
        proc := (ss.foldl Procfs.umsSchedulerProcUnregister
          (ws.foldl Procfs.umsWorkerProcUnregister s.proc)).umsProcDirsDestroy }
    else none

end Tables

namespace Procfs

variable {P P' : Procfs} {t : Pid}

theorem hasDirs_worker_iff {x : Option WorkerProcDirs} {b : Prop} (hx : x ≠ none ↔ b)
    (hw : P'.worker = Function.update P.worker t x) (hs : P'.scheduler = P.scheduler) (u : Pid)
    (r : Role) :
    P'.HasDirs u r ↔ if (u, r) = (t, .worker) then b else P.HasDirs u r := by
  cases r with
  | worker =>
    by_cases hut : u = t
    · simpa [HasDirs, hw, hut] using hx
    · simp [HasDirs, hw, hut]
  | scheduler => simp [HasDirs, hs]

theorem hasDirs_scheduler_iff {x : Option SchedulerProcDirs} {b : Prop} (hx : x ≠ none ↔ b)
    (hs : P'.scheduler = Function.update P.scheduler t x) (hw : P'.worker = P.worker) (u : Pid)
    (r : Role) :
    P'.HasDirs u r ↔ if (u, r) = (t, .scheduler) then b else P.HasDirs u r := by
  cases r with
  | worker => simp [HasDirs, hw]
  | scheduler =>
    by_cases hut : u = t
    · simpa [HasDirs, hs, hut] using hx
    · simp [HasDirs, hs, hut]

end Procfs

namespace Layout

variable {P : Procfs} {t : Pid}

theorem register (lay : Layout P (fun _ => none)) (t : Pid) (f : ProcRegister) :
    (∃ n, P.tree.next ≤ n ∧ P.register t f = (false, P.skip n)) ∨
      ∃ P', P.register t f = (true, P') ∧ Layout P' (fun _ => none) ∧ ¬ P.HasDirs t f.role ∧
        ∀ u r, P'.HasDirs u r ↔ if (u, r) = (t, f.role) then True else P.HasDirs u r := by
  cases f with
  | worker f =>
    rcases lay.registerWorker t f with h | ⟨n, d, hnone, h, -, hlay⟩
    · exact Or.inl h
    · refine Or.inr ⟨_, h, hlay, by simp [Procfs.HasDirs, ProcRegister.role, hnone], fun u r => ?_⟩
      exact Procfs.hasDirs_worker_iff (x := some d) (b := True) (by simp) (by rfl) (by rfl) u r
  | scheduler f =>
    rcases lay.registerScheduler t f with h | ⟨n, d, hnone, -, -, h, -, hlay⟩
    · exact Or.inl h
    · refine Or.inr ⟨_, h, hlay, by simp [Procfs.HasDirs, ProcRegister.role, hnone], fun u r => ?_⟩
      exact Procfs.hasDirs_scheduler_iff (x := some d) (b := True) (by simp) (by rfl) (by rfl) u r

theorem unregister (lay : Layout P (fun _ => none)) (t : Pid) (r : Role) :
    Layout (P.unregister t r) (fun _ => none) ∧
      ∀ u q, (P.unregister t r).HasDirs u q ↔ if (u, q) = (t, r) then False else P.HasDirs u q := by
  cases r with
  | worker =>
    obtain ⟨hw, hs, -⟩ := lay.unregisterWorker_fields t
    refine ⟨lay.unregisterWorker t rfl, fun u q => ?_⟩
    exact Procfs.hasDirs_worker_iff (by simp) hw hs u q
  | scheduler =>
    obtain ⟨hs, hw, -⟩ := lay.unregisterScheduler_fields t
    refine ⟨lay.unregisterScheduler t (by simp), fun u q => ?_⟩
    exact Procfs.hasDirs_scheduler_iff (by simp) hs hw u q

theorem forget (lay : Layout P (fun _ => none)) (t : Pid) (r : Role) :
    Layout (P.forget t r) (fun _ => none) ∧
      ∀ u q, (P.forget t r).HasDirs u q ↔ if (u, q) = (t, r) then False else P.HasDirs u q := by
  cases r with
  | worker =>
    refine ⟨⟨lay.ok, lay.root, lay.below, lay.scheduler,
      fun u d hd => lay.worker u d (KernelList.of_update_none hd).2, by simp⟩, fun u q => ?_⟩
    exact Procfs.hasDirs_worker_iff (x := none) (b := False) (by simp) (by rfl) (by rfl) u q
  | scheduler =>
    refine ⟨⟨lay.ok, lay.root, lay.below,
      fun u d hd => lay.scheduler u d (KernelList.of_update_none hd).2, lay.worker, by simp⟩,
      fun u q => ?_⟩
    exact Procfs.hasDirs_scheduler_iff (x := none) (b := False) (by simp) (by rfl) (by rfl) u q

/-- When the device is released with all its contexts, nothing is left. -/
theorem released (lay : Layout P (fun _ => none)) (ws ss : List Pid)
    (hws : ∀ t, P.worker t ≠ none → t ∈ ws) (hss : ∀ t, P.scheduler t ≠ none → t ∈ ss) :
    (ss.foldl Procfs.umsSchedulerProcUnregister
      (ws.foldl Procfs.umsWorkerProcUnregister P)).umsProcDirsDestroy.tree.Ok ∧
    (ss.foldl Procfs.umsSchedulerProcUnregister
      (ws.foldl Procfs.umsWorkerProcUnregister P)).umsProcDirsDestroy.tree.entries = [] ∧
    (∀ t, (ss.foldl Procfs.umsSchedulerProcUnregister
      (ws.foldl Procfs.umsWorkerProcUnregister P)).umsProcDirsDestroy.worker t = none) ∧
    ∀ t, (ss.foldl Procfs.umsSchedulerProcUnregister
      (ws.foldl Procfs.umsWorkerProcUnregister P)).umsProcDirsDestroy.scheduler t = none := by
  obtain ⟨Q, hQ, hlay, hw, hs, -⟩ := OpenDevice.unregister_workers P lay ws
  obtain ⟨R, hR, hlay', hs', hw', -⟩ := OpenDevice.unregister_schedulers Q hlay ss
  rw [hQ, hR, Procfs.umsProcDirsDestroy_eq hlay'.root hlay'.below]
  refine ⟨⟨by simp, by simp, by simp, by simp, by simp⟩, rfl, fun t => ?_, fun t => ?_⟩
  · by_contra hne
    obtain ⟨hmem, hold⟩ := hw t (by rwa [← hw'])
    exact hmem (hws t hold)
  · by_contra hne
    obtain ⟨hmem, hold⟩ := hs' t hne
    rw [hs] at hold
    exact hmem (hss t hold)

end Layout

namespace Tables

variable {s s' : Tables} {t : Pid}

/-- Entries and directories come together, except that a thread in its first stage has no entry
yet, and one in its last has no directories any more. -/
structure OpenInv (s : Tables) : Prop where
  layout : Layout s.proc (fun _ => none)
  dirs : ∀ r, ∀ t ∈ s.table r,
    s.proc.HasDirs t r ∨ Keyed.get s.inside t = some (r, .unregistered)
  entry : ∀ r t, s.proc.HasDirs t r →
    t ∈ s.table r ∨ Keyed.get s.inside t = some (r, .registered)
  registered : ∀ t r, Keyed.get s.inside t = some (r, .registered) →
    s.proc.HasDirs t r ∧ t ∉ s.table r
  gone : ∀ t r, Keyed.get s.inside t = some (r, .unregistered) → ¬ s.proc.HasDirs t r
  nodup : ∀ r, (s.table r).Nodup

structure ClosedInv (s : Tables) : Prop where
  ok : s.proc.tree.Ok
  entries : s.proc.tree.entries = []
  worker : ∀ t, s.proc.worker t = none
  scheduler : ∀ t, s.proc.scheduler t = none
  table : ∀ r, s.table r = []
  inside : s.inside = []

structure Inv (s : Tables) : Prop where
  opened : s.opened = true → s.OpenInv
  closed : s.opened = false → s.ClosedInv

theorem inv_init : init.Inv :=
  ⟨by simp [init], fun _ => ⟨Tree.ok_empty, rfl, fun _ => rfl, fun _ => rfl, fun _ => rfl, rfl⟩⟩

/-- Nobody is inside a call on a closed device. -/
theorem Inv.opened_of_inside (hi : s.Inv) {x : Role × Stage}
    (hx : Keyed.get s.inside t = some x) : s.OpenInv ∧ s.opened = true := by
  cases ho : s.opened with
  | true => exact ⟨hi.opened ho, rfl⟩
  | false =>
    rw [(hi.closed ho).inside] at hx
    cases hx

theorem goTo_get (r : Role) (stage : Stage) (u : Pid) :
    Keyed.get (s.goTo t r stage).inside u =
      if u = t then some (r, stage) else Keyed.get s.inside u := by
  simp only [goTo, Keyed.get_cons, Keyed.get_remove]
  by_cases h : u = t
  · simp [h]
  · simp [h, Ne.symm h]

theorem ret_get (u : Pid) :
    Keyed.get (s.ret t).inside u = if u = t then none else Keyed.get s.inside u :=
  Keyed.get_remove u

/-- A step of thread `t` in one role. What it does to its own entry, directories and stage has to
fit together; for everybody else nothing changes. -/
theorem OpenInv.own (hi : s.OpenInv) (r : Role) (hlay : Layout s'.proc (fun _ => none))
    (hdirs : ∀ u q, (u, q) ≠ (t, r) → (s'.proc.HasDirs u q ↔ s.proc.HasDirs u q))
    (htable : ∀ u q, (u, q) ≠ (t, r) → (u ∈ s'.table q ↔ u ∈ s.table q))
    (hinside : ∀ u, u ≠ t → Keyed.get s'.inside u = Keyed.get s.inside u)
    (hnodup : ∀ q, (s'.table q).Nodup)
    (hfrom : ∀ q, q ≠ r → Keyed.get s.inside t ≠ some (q, .registered) ∧
      Keyed.get s.inside t ≠ some (q, .unregistered))
    (hto : ∀ q stage, q ≠ r → Keyed.get s'.inside t ≠ some (q, stage))
    (hself : (t ∈ s'.table r → s'.proc.HasDirs t r ∨
        Keyed.get s'.inside t = some (r, .unregistered)) ∧
      (s'.proc.HasDirs t r → t ∈ s'.table r ∨ Keyed.get s'.inside t = some (r, .registered)) ∧
      (Keyed.get s'.inside t = some (r, .registered) →
        s'.proc.HasDirs t r ∧ t ∉ s'.table r) ∧
      (Keyed.get s'.inside t = some (r, .unregistered) → ¬ s'.proc.HasDirs t r)) :
    s'.OpenInv := by
  obtain ⟨hself₁, hself₂, hself₃, hself₄⟩ := hself
  refine ⟨hlay, fun q u hu => ?_, fun q u hu => ?_, fun u q hu => ?_, fun u q hu => ?_, hnodup⟩
  · by_cases hown : (u, q) = (t, r)
    · cases hown
      exact hself₁ hu
    · -- in its other role `t` is in the middle of nothing
      rcases hi.dirs q u ((htable u q hown).mp hu) with hd | hd
      · exact Or.inl ((hdirs u q hown).mpr hd)
      · by_cases hut : u = t
        · subst hut
          have hqr : q ≠ r := fun he => hown (by rw [he])
          exact absurd hd (hfrom q hqr).2
        · exact Or.inr ((hinside u hut).trans hd)
  · by_cases hown : (u, q) = (t, r)
    · cases hown
      exact hself₂ hu
    · rcases hi.entry q u ((hdirs u q hown).mp hu) with hd | hd
      · exact Or.inl ((htable u q hown).mpr hd)
      · by_cases hut : u = t
        · subst hut
          have hqr : q ≠ r := fun he => hown (by rw [he])
          exact absurd hd (hfrom q hqr).1
        · exact Or.inr ((hinside u hut).trans hd)
  · by_cases hown : (u, q) = (t, r)
    · cases hown
      exact hself₃ hu
    · by_cases hut : u = t
      · subst hut
        have hqr : q ≠ r := fun he => hown (by rw [he])
        exact absurd hu (hto q _ hqr)
      · obtain ⟨hd, hout⟩ := hi.registered u q ((hinside u hut).symm.trans hu)
        exact ⟨(hdirs u q hown).mpr hd, fun hm => hout ((htable u q hown).mp hm)⟩
  · by_cases hown : (u, q) = (t, r)
    · cases hown
      exact hself₄ hu
    · by_cases hut : u = t
      · subst hut
        have hqr : q ≠ r := fun he => hown (by rw [he])
        exact absurd hu (hto q _ hqr)
      · exact mt (hdirs u q hown).mp (hi.gone u q ((hinside u hut).symm.trans hu))

/-- A thread that is in no call and has an entry cannot make its directories again. -/
theorem OpenInv.register_fails (hi : s.OpenInv) (f : ProcRegister)
    (hin : Keyed.get s.inside t = none) (ht : t ∈ s.table f.role) :
    ∃ n, s.proc.tree.next ≤ n ∧ s.proc.register t f = (false, s.proc.skip n) := by
  rcases hi.layout.register t f with h | ⟨P, -, -, hno, -⟩
  · exact h
  · rcases hi.dirs f.role t ht with hd | hd
    · exact absurd hd hno
    · rw [hin] at hd
      cases hd

theorem OpenInv.register (hi : s.OpenInv) (f : ProcRegister) (hin : Keyed.get s.inside t = none) :
    (∃ n, s.proc.register t f = (false, s.proc.skip n) ∧
      OpenInv { s with proc := s.proc.skip n }) ∨
      ∃ P, s.proc.register t f = (true, P) ∧
        ({ s with proc := P }.goTo t f.role .registered).OpenInv := by
  rcases hi.layout.register t f with ⟨n, hn, h⟩ | ⟨P, h, hlay, hno, hP⟩
  · exact Or.inl ⟨n, h, hi.layout.skip n hn, hi.dirs, hi.entry, hi.registered, hi.gone,
      hi.nodup⟩
  · refine Or.inr ⟨P, h, hi.own (t := t) f.role hlay (fun u q hne => ?_) (fun _ _ _ => Iff.rfl)
      (fun u hu => by rw [goTo_get, if_neg hu]) hi.nodup (fun q _ => by simp [hin])
      (fun q stage hq => ?_) ⟨fun _ => ?_, fun _ => ?_, fun _ => ?_, fun hun => ?_⟩⟩
    · exact (hP u q).trans (by rw [if_neg hne])
    · rw [goTo_get, if_pos rfl]
      simp [Ne.symm hq]
    · exact Or.inl ((hP t f.role).mpr (by simp))
    · exact Or.inr (by rw [goTo_get, if_pos rfl])
    · refine ⟨(hP t f.role).mpr (by simp), fun ht => ?_⟩
      obtain ⟨n, -, h'⟩ := hi.register_fails f hin ht
      rw [h] at h'
      cases h'
    · rw [goTo_get, if_pos rfl] at hun
      cases hun

/-- The other role of a thread is not touched while it is inside a call in this one. -/
theorem other_role {r q : Role} {stage : Stage} (hin : Keyed.get s.inside t = some (r, stage))
    (hq : q ≠ r) : Keyed.get s.inside t ≠ some (q, .registered) ∧
      Keyed.get s.inside t ≠ some (q, .unregistered) := by
  simp [hin, Ne.symm hq]

theorem OpenInv.insert (hi : s.OpenInv) (r : Role)
    (hin : Keyed.get s.inside t = some (r, .registered)) :
    ({ s with table := Function.update s.table r (t :: s.table r) }.goTo t r
      .inserted).OpenInv := by
  obtain ⟨hd, hout⟩ := hi.registered t r hin
  refine hi.own (t := t) r hi.layout (fun _ _ _ => Iff.rfl) (fun u q hne => ?_)
    (fun u hu => by rw [goTo_get, if_neg hu]) (fun q => ?_) (fun q hq => other_role hin hq)
    (fun q stage hq => by rw [goTo_get, if_pos rfl]; simp [Ne.symm hq])
    ⟨fun _ => Or.inl hd, fun _ => Or.inl ?_, fun hreg => ?_, fun hun => ?_⟩
  · simp only [Tables.goTo]
    by_cases hq : q = r
    · subst hq
      have hut : u ≠ t := fun he => hne (by rw [he])
      simp [hut]
    · rw [Function.update_of_ne hq]
  · simp only [Tables.goTo]
    by_cases hq : q = r
    · subst hq
      rw [Function.update_self]
      exact List.nodup_cons.mpr ⟨hout, hi.nodup q⟩
    · rw [Function.update_of_ne hq]
      exact hi.nodup q
  · simp [Tables.goTo]
  · rw [goTo_get, if_pos rfl] at hreg
    cases hreg
  · rw [goTo_get, if_pos rfl] at hun
    cases hun

/-- An insertion that fails leaves the directories behind, and they belong to nobody. -/
theorem OpenInv.insertFailed (hi : s.OpenInv) (r : Role)
    (hin : Keyed.get s.inside t = some (r, .registered)) :
    ({ s with proc := s.proc.forget t r }.ret t).OpenInv := by
  obtain ⟨-, hout⟩ := hi.registered t r hin
  obtain ⟨hlay, hP⟩ := hi.layout.forget t r
  refine hi.own (t := t) r hlay (fun u q hne => (hP u q).trans (by rw [if_neg hne]))
    (fun _ _ _ => Iff.rfl) (fun u hu => by rw [ret_get, if_neg hu]) hi.nodup
    (fun q hq => other_role hin hq) (fun q stage _ => by rw [ret_get, if_pos rfl]; simp)
    ⟨fun ht => absurd ht hout, fun hd => ?_, fun hreg => ?_, fun hun => ?_⟩
  · have hno := (hP t r).mp hd
    simp at hno
  · rw [ret_get, if_pos rfl] at hreg
    cases hreg
  · rw [ret_get, if_pos rfl] at hun
    cases hun

/-- A thread goes from one stage in the middle to another, or returns. -/
theorem OpenInv.goTo (hi : s.OpenInv) (r : Role) (hin : Keyed.get s.inside t = none ∨
    Keyed.get s.inside t = some (r, .inserted)) : (s.goTo t r .leaving).OpenInv := by
  refine hi.own (t := t) r hi.layout (fun _ _ _ => Iff.rfl) (fun _ _ _ => Iff.rfl)
    (fun u hu => by rw [goTo_get, if_neg hu]) hi.nodup (fun q _ => ?_)
    (fun q stage hq => by rw [goTo_get, if_pos rfl]; simp [Ne.symm hq])
    ⟨fun ht => Or.inl ?_, fun hd => Or.inl ?_, fun hreg => ?_, fun hun => ?_⟩
  · rcases hin with h | h <;> simp [h]
  · refine (hi.dirs r t ht).resolve_right ?_
    rcases hin with h | h <;> simp [h]
  · refine (hi.entry r t hd).resolve_right ?_
    rcases hin with h | h <;> simp [h]
  · rw [goTo_get, if_pos rfl] at hreg
    cases hreg
  · rw [goTo_get, if_pos rfl] at hun
    cases hun

theorem OpenInv.ret (hi : s.OpenInv) (r : Role)
    (hin : Keyed.get s.inside t = some (r, .inserted)) : (s.ret t).OpenInv := by
  refine hi.own (t := t) r hi.layout (fun _ _ _ => Iff.rfl) (fun _ _ _ => Iff.rfl)
    (fun u hu => by rw [ret_get, if_neg hu]) hi.nodup (fun q hq => other_role hin hq)
    (fun q stage _ => by rw [ret_get, if_pos rfl]; simp)
    ⟨fun ht => Or.inl ?_, fun hd => Or.inl ?_, fun hreg => ?_, fun hun => ?_⟩
  · exact (hi.dirs r t ht).resolve_right (by simp [hin])
  · exact (hi.entry r t hd).resolve_right (by simp [hin])
  · rw [ret_get, if_pos rfl] at hreg
    cases hreg
  · rw [ret_get, if_pos rfl] at hun
    cases hun

theorem OpenInv.unregister (hi : s.OpenInv) (r : Role)
    (hin : Keyed.get s.inside t = some (r, .leaving)) :
    ({ s with proc := s.proc.unregister t r }.goTo t r .unregistered).OpenInv := by
  obtain ⟨hlay, hP⟩ := hi.layout.unregister t r
  have hgone : ¬ (s.proc.unregister t r).HasDirs t r := by
    rw [hP]
    simp
  refine hi.own (t := t) r hlay (fun u q hne => (hP u q).trans (by rw [if_neg hne]))
    (fun _ _ _ => Iff.rfl) (fun u hu => by rw [goTo_get, if_neg hu]) hi.nodup
    (fun q hq => other_role hin hq)
    (fun q stage hq => by rw [goTo_get, if_pos rfl]; simp [Ne.symm hq])
    ⟨fun _ => Or.inr (by rw [goTo_get, if_pos rfl]), fun hd => absurd hd hgone, fun hreg => ?_,
      fun _ => hgone⟩
  rw [goTo_get, if_pos rfl] at hreg
  cases hreg

theorem OpenInv.remove (hi : s.OpenInv) (r : Role)
    (hin : Keyed.get s.inside t = some (r, .unregistered)) :
    ({ s with table := Function.update s.table r ((s.table r).erase t) }.ret t).OpenInv := by
  refine hi.own (t := t) r hi.layout (fun _ _ _ => Iff.rfl) (fun u q hne => ?_)
    (fun u hu => by rw [ret_get, if_neg hu]) (fun q => ?_) (fun q hq => other_role hin hq)
    (fun q stage _ => by rw [ret_get, if_pos rfl]; simp)
    ⟨fun ht => ?_, fun hd => absurd hd (hi.gone t r hin), fun hreg => ?_, fun hun => ?_⟩
  · simp only [Tables.ret]
    by_cases hq : q = r
    · subst hq
      have hut : u ≠ t := fun he => hne (by rw [he])
      rw [Function.update_self, (hi.nodup q).mem_erase_iff]
      simp [hut]
    · rw [Function.update_of_ne hq]
  · simp only [Tables.ret]
    by_cases hq : q = r
    · subst hq
      rw [Function.update_self]
      exact (hi.nodup q).erase t
    · rw [Function.update_of_ne hq]
      exact hi.nodup q
  · simp only [Tables.ret, Function.update_self, (hi.nodup r).mem_erase_iff] at ht
    exact absurd rfl ht.1
  · rw [ret_get, if_pos rfl] at hreg
    cases hreg
  · rw [ret_get, if_pos rfl] at hun
    cases hun

theorem Inv.open (hi : s.Inv) (hc : s.opened = false) (pid : Pid) (dirs : DirsInit)
    (h : s.step (.openDev pid dirs) = some s') : s'.Inv := by
  have hcl := hi.closed hc
  simp only [step, hc, Bool.false_eq_true, if_false] at h
  rcases Layout.opened hcl.ok hcl.entries hcl.scheduler hcl.worker pid dirs with
    ⟨n, hn, hd⟩ | ⟨P, hd, hs, hw, -, -, -, hlay⟩
  · rw [hd] at h
    obtain rfl := Option.some.inj h
    exact ⟨by simp, fun _ => ⟨hcl.ok.mono n hn, hcl.entries, hcl.worker, hcl.scheduler,
      hcl.table, hcl.inside⟩⟩
  · rw [hd] at h
    obtain rfl := Option.some.inj h
    refine ⟨fun _ => ⟨hlay, by simp [init], fun r t hd => ?_, by simp [init, Keyed.get],
      by simp [init, Keyed.get], by simp [init]⟩, by simp⟩
    cases r with
    | worker => simp [Procfs.HasDirs, hw, hcl.worker] at hd
    | scheduler => simp [Procfs.HasDirs, hs, hcl.scheduler] at hd

theorem Inv.release (hi : s.Inv) (ho : s.opened = true) (ws ss : List Pid)
    (hin : s.inside = []) (hws : ws.Perm (s.table .worker)) (hss : ss.Perm (s.table .scheduler)) :
    Inv { init with
      proc := (ss.foldl Procfs.umsSchedulerProcUnregister
        (ws.foldl Procfs.umsWorkerProcUnregister s.proc)).umsProcDirsDestroy } := by
  have hop := hi.opened ho
  have hentry (r : Role) (t : Pid) (hd : s.proc.HasDirs t r) : t ∈ s.table r := by
    refine (hop.entry r t hd).resolve_right ?_
    simp [hin, Keyed.get]
  obtain ⟨hok, hentries, hw, hs⟩ := hop.layout.released ws ss
    (fun t ht => hws.mem_iff.mpr (hentry .worker t ht))
    (fun t ht => hss.mem_iff.mpr (hentry .scheduler t ht))
  exact ⟨by simp [init], fun _ => ⟨hok, hentries, hw, hs, fun _ => rfl, rfl⟩⟩

theorem Inv.step (hi : s.Inv) (act : TableAct) (h : s.step act = some s') : s'.Inv := by
  -- only an open and a release change whether the device is open
  have hkeep {s' : Tables} (hop : s'.OpenInv) (ho : s'.opened = true) : s'.Inv :=
    ⟨fun _ => hop, fun hc => by simp [ho] at hc⟩
  cases act with
  | openDev pid dirs =>
    cases hc : s.opened with
    | true => simp [Tables.step, hc] at h
    | false => exact hi.open hc pid dirs h
  | register t f =>
    simp only [Tables.step] at h
    split at h
    · rename_i hcond
      obtain ⟨ho, hin⟩ := hcond
      rcases (hi.opened ho).register f hin with ⟨n, hreg, hop⟩ | ⟨P, hreg, hop⟩
      · rw [hreg] at h
        exact Option.some.inj h ▸ hkeep hop ho
      · rw [hreg] at h
        exact Option.some.inj h ▸ hkeep hop ho
    · cases h
  | insert t ok =>
    simp only [Tables.step] at h
    split at h
    · rename_i r hin
      obtain ⟨hop, ho⟩ := hi.opened_of_inside hin
      split at h
      · exact Option.some.inj h ▸ hkeep (hop.insert r hin) ho
      · exact Option.some.inj h ▸ hkeep (hop.insertFailed r hin) ho
    · cases h
  | find t ok =>
    simp only [Tables.step] at h
    split at h
    · rename_i r hin
      obtain ⟨hop, ho⟩ := hi.opened_of_inside hin
      split at h
      · exact Option.some.inj h ▸ hkeep (hop.ret r hin) ho
      · exact Option.some.inj h ▸ hkeep (hop.goTo r (Or.inr hin)) ho
    · cases h
  | exit t ok =>
    simp only [Tables.step] at h
    split at h
    · rename_i hcond
      obtain ⟨ho, hin⟩ := hcond
      split at h
      · exact Option.some.inj h ▸ hkeep ((hi.opened ho).goTo .worker (Or.inl hin)) ho
      · exact Option.some.inj h ▸ hi
    · cases h
  | unregister t =>
    simp only [Tables.step] at h
    split at h
    · rename_i r hin
      obtain ⟨hop, ho⟩ := hi.opened_of_inside hin
      exact Option.some.inj h ▸ hkeep (hop.unregister r hin) ho
    · cases h
  | remove t =>
    simp only [Tables.step] at h
    split at h
    · rename_i r hin
      obtain ⟨hop, ho⟩ := hi.opened_of_inside hin
      exact Option.some.inj h ▸ hkeep (hop.remove r hin) ho
    · cases h
  | release ws ss =>
    simp only [Tables.step] at h
    split at h
    · rename_i hcond
      obtain ⟨ho, hin, hws, hss⟩ := hcond
      exact Option.some.inj h ▸ hi.release ho ws ss hin (List.isPerm_iff.mp hws)
        (List.isPerm_iff.mp hss)
    · cases h

/-- In every state that is reached, in the middle of calls or between them, no pid has two entries
in a table; and a thread that has an entry and enters again in the same role fails, with the
tables as they were. -/
theorem pids_unique_keys (s : Tables)
    (hr : Transition.Reach Tables.step (fun _ _ => True) Tables.init s) :
    (∀ r, (s.table r).Nodup) ∧
      ∀ t f s', t ∈ s.table f.role → s.step (.register t f) = some s' →
        s'.table = s.table ∧ s'.inside = s.inside ∧ Keyed.get s'.inside t = none := by
  have hi : s.Inv := hr.invariant Inv inv_init (fun _ act _ hi _ h => hi.step act h)
  constructor
  · intro r
    cases ho : s.opened with
    | true => exact (hi.opened ho).nodup r
    | false =>
      rw [(hi.closed ho).table]
      exact List.nodup_nil
  · intro t f s' ht h
    simp only [Tables.step] at h
    split at h
    · rename_i hcond
      obtain ⟨ho, hin⟩ := hcond
      obtain ⟨n, -, hreg⟩ := (hi.opened ho).register_fails f hin ht
      rw [hreg] at h
      obtain rfl := Option.some.inj h
      exact ⟨rfl, rfl, hin⟩
    · cases h

/-- Thread 1 becomes worker and scheduler, thread 2 cannot be inserted, and thread 1 enters
again. -/
theorem pids_unique_keys_again :
    ∃ s s', Transition.Reach Tables.step (fun _ _ => True) Tables.init s ∧
      (s.table .worker = [1] ∧ s.table .scheduler = [1]) ∧
      s.step (.register 1 (.worker {})) = some s' ∧ (∀ r, (s.table r).Nodup) ∧
      s'.table = s.table ∧ Keyed.get s'.inside 1 = none := by
  obtain ⟨s, hr, hs, hstep⟩ := Transition.Reach.exists_of_run Tables.step (fun _ _ => True)
    Tables.init
    [.openDev 7 {}, .register 1 (.worker {}), .register 2 (.worker {}), .insert 1 true,
      .find 1 true, .insert 2 false, .register 1 (.scheduler {}), .insert 1 true, .find 1 true]
    (fun s => (s.table .worker = [1] ∧ s.table .scheduler = [1]) ∧
      (s.step (.register 1 (.worker {}))).isSome = true) (by decide +kernel)
  obtain ⟨s', h⟩ := Option.isSome_iff_exists.mp hstep
  obtain ⟨hnodup, hagain⟩ := pids_unique_keys s hr
  obtain ⟨htable, -, hret⟩ := hagain 1 (.worker {}) s'
    (by simp [ProcRegister.role, hs.1]) h
  exact ⟨s, s', hr, hs, h, hnodup, htable, hret⟩

end Tables

end LinuxUms
