import LinuxUms.Complist
import LinuxUms.ProcTree
import Mathlib.Algebra.Group.Nat.Defs

/-! The module's entries in procfs: `proc/base.c`, `proc/scheduler.c` and `proc/worker.c`. The
directory `/proc/ums` is the one that the tree hangs from. -/
namespace LinuxUms

open KernelList ProcTree

/-- Names below `/proc/ums`; pids are written in decimal. -/
inductive ProcName where
  | pid (p : Pid)
  | schedulers
  | workers
  | info
  | link (name : List Char)
  deriving DecidableEq

def umsProcSchedSymlinkBuflen : ℕ := 12

/-- `snprintf(symlink_name, UMS_PROC_SCHED_SYMLINK_BUFLEN, "%lu", n)`. -/
def symlinkName (n : ℕ) : List Char :=
  (Nat.toDigits 10 n).take (umsProcSchedSymlinkBuflen - 1)

/-- Of the contents of an entry only the worker that a link leads to matters here. -/
abbrev ProcPath := Path ProcName (Option Pid)

/-- A `struct proc_dir_entry *`; `junk` is what a member holds that was never assigned. -/
inductive EntryPtr where
  | null
  | junk
  | entry (e : ProcPath)
  deriving DecidableEq

/-- The functions that call `proc_remove`. -/
inductive RemoveSite where
  | procDirsInit
  | procDirsDestroy
  | schedulerProcRegister
  | schedulerProcUnregister
  | unregisterWorker
  | workerProcRegister
  | workerProcUnregister
  deriving DecidableEq

structure UmsProcDirs where
  pidDir : ProcPath
  schedDir : ProcPath
  workersDir : ProcPath
  deriving DecidableEq

structure SchedulerProcDirs where
  schedulerDir : ProcPath
  schedulerInfoDir : ProcPath
  workersDir : ProcPath
  nWorkers : ℕ
  maxWorkers : ℕ
  deriving DecidableEq

structure WorkerProcDirs where
  workerDir : ProcPath
  workerInfoDir : ProcPath
  workerLink : EntryPtr
  deriving DecidableEq

/-- The tree with the `dirs` members of the open device and of its schedulers and workers.
`bad` records the calls of `proc_remove` on what is no entry of the tree, and `underflow` that
some `n_workers` was decremented from 0. -/
structure Procfs where
  tree : Tree ProcName (Option Pid)
  dirs : UmsProcDirs
  scheduler : Pid → Option SchedulerProcDirs
  worker : Pid → Option WorkerProcDirs
  bad : List (RemoveSite × EntryPtr)
  underflow : Bool

/-- Which of the allocations of `ums_proc_dirs_init` succeed. -/
structure DirsInit where
  pidDir : Bool := true
  pidDirPath : Bool := true
  schedDir : Bool := true
  workersDir : Bool := true
  workersDirPath : Bool := true

structure SchedulerRegister where
  schedulerDir : Bool := true
  schedulerInfoDir : Bool := true
  workersDir : Bool := true

structure WorkerRegister where
  workerDir : Bool := true
  workerDirPath : Bool := true
  workerInfoDir : Bool := true

namespace Procfs

def init : Procfs where
  tree := .empty
  dirs := ⟨[], [], []⟩
  scheduler _ := none
  worker _ := none
  bad := []
  underflow := false

/-- `proc_mkdir`, `proc_create_data` and `proc_symlink`, which fail on a name in use. -/
def procCreate (P : Procfs) (d : ProcPath) (n : ProcName) (target : Option Pid) (memory : Bool) :
    Option ProcPath × Procfs :=
  let r := P.tree.create d n target memory
  (r.1, { P with tree := r.2 })

def procRemove (P : Procfs) (site : RemoveSite) : EntryPtr → Procfs
  | .null => P
  | .junk => { P with bad := (site, .junk) :: P.bad }
  | .entry e =>
    { P with
      tree := P.tree.remove e
      bad := if e ∈ P.tree.entries then P.bad else (site, .entry e) :: P.bad }

def umsProcDirsInit (P : Procfs) (pid : Pid) (f : DirsInit) : Bool × Procfs :=
  match P.procCreate [] (.pid pid) none f.pidDir with
  | (none, P) => (false, P)
  | (some pidDir, P) =>
    if f.pidDirPath = false then (false, P.procRemove .procDirsInit (.entry pidDir))
    else
      match P.procCreate pidDir .schedulers none f.schedDir with
      | (none, P) => (false, P.procRemove .procDirsInit (.entry pidDir))
      | (some schedDir, P) =>
        match P.procCreate pidDir .workers none f.workersDir with
        | (none, P) =>
          (false, (P.procRemove .procDirsInit (.entry schedDir)).procRemove .procDirsInit
            (.entry pidDir))
        | (some workersDir, P) =>
          if f.workersDirPath = false then
            (false, ((P.procRemove .procDirsInit (.entry workersDir)).procRemove .procDirsInit
              (.entry schedDir)).procRemove .procDirsInit (.entry pidDir))
          else (true, { P with dirs := ⟨pidDir, schedDir, workersDir⟩ })

/-- The parent directory goes first. -/
def umsProcDirsDestroy (P : Procfs) : Procfs :=
  ((P.procRemove .procDirsDestroy (.entry P.dirs.pidDir)).procRemove .procDirsDestroy
    (.entry P.dirs.schedDir)).procRemove .procDirsDestroy (.entry P.dirs.workersDir)

def umsSchedulerProcRegister (P : Procfs) (t : Pid) (f : SchedulerRegister) : Bool × Procfs :=
  match P.procCreate P.dirs.schedDir (.pid t) none f.schedulerDir with
  | (none, P) => (false, P)
  | (some schedulerDir, P) =>
    match P.procCreate schedulerDir .info none f.schedulerInfoDir with
    | (none, P) => (false, P.procRemove .schedulerProcRegister (.entry schedulerDir))
    | (some infoDir, P) =>
      match P.procCreate schedulerDir .workers none f.workersDir with
      | (none, P) =>
        (false, (P.procRemove .schedulerProcRegister (.entry infoDir)).procRemove
          .schedulerProcRegister (.entry schedulerDir))
      | (some workersDir, P) =>
        (true, { P with
          scheduler := Function.update P.scheduler t
            (some ⟨schedulerDir, infoDir, workersDir, 0, 0⟩) })

def umsSchedulerProcUnregister (P : Procfs) (t : Pid) : Procfs :=
  match P.scheduler t with
  | none => P
  | some d =>
    { ((P.procRemove .schedulerProcUnregister (.entry d.workersDir)).procRemove
        .schedulerProcUnregister (.entry d.schedulerInfoDir)).procRemove
        .schedulerProcUnregister (.entry d.schedulerDir) with
      scheduler := Function.update P.scheduler t none }

/-- `worker_link` is not assigned here. -/
def umsWorkerProcRegister (P : Procfs) (t : Pid) (f : WorkerRegister) : Bool × Procfs :=
  match P.procCreate P.dirs.workersDir (.pid t) none f.workerDir with
  | (none, P) => (false, P)
  | (some workerDir, P) =>
    if f.workerDirPath = false then (false, P.procRemove .workerProcRegister (.entry workerDir))
    else
      match P.procCreate workerDir .info none f.workerInfoDir with
      | (none, P) => (false, P.procRemove .workerProcRegister (.entry workerDir))
      | (some infoDir, P) =>
        (true, { P with
          worker := Function.update P.worker t (some ⟨workerDir, infoDir, .junk⟩) })

def umsWorkerProcUnregister (P : Procfs) (t : Pid) : Procfs :=
  match P.worker t with
  | none => P
  | some d =>
    { (P.procRemove .workerProcUnregister (.entry d.workerInfoDir)).procRemove
        .workerProcUnregister (.entry d.workerDir) with
      worker := Function.update P.worker t none }

/-- A link to worker `c` among the workers of scheduler `p`. -/
def umsSchedulerProcRegisterWorker (P : Procfs) (p c : Pid) (memory : Bool) : Bool × Procfs :=
  match P.scheduler p, P.worker c with
  | some d, some w =>
    match P.procCreate d.workersDir (.link (symlinkName (d.maxWorkers + 1))) (some c) memory with
    | (none, P) =>
      (false, { P with worker := Function.update P.worker c (some { w with workerLink := .null }) })
    | (some e, P) =>
      (true, { P with
        worker := Function.update P.worker c (some { w with workerLink := .entry e })
        scheduler := Function.update P.scheduler p
          (some { d with nWorkers := d.nWorkers + 1, maxWorkers := d.maxWorkers + 1 }) })
  | _, _ => (false, P)

/-- `n--` for an `unsigned long`. -/
def decrement (n : ℕ) : ℕ := if n = 0 then 2 ^ 64 - 1 else n - 1

/-- The link goes by the pointer in the worker, the count by the scheduler that executes it. -/
def umsSchedulerProcUnregisterWorker (P : Procfs) (p c : Pid) : Procfs :=
  match P.scheduler p, P.worker c with
  | some d, some w =>
    let n := decrement d.nWorkers
    { P.procRemove .unregisterWorker w.workerLink with
      scheduler := Function.update P.scheduler p
        (some { d with nWorkers := n, maxWorkers := if n = 0 then 0 else d.maxWorkers })
      underflow := P.underflow || d.nWorkers = 0 }
  | _, _ => P

/-- The loop of `ums_complist_dqcontext` over what is left behind the first context; a link that
cannot be made is passed over. -/
def registerWorkers (P : Procfs) (p : Pid) (cs : List (Pid × Bool)) : Procfs :=
  cs.foldl (fun P x => (P.umsSchedulerProcRegisterWorker p x.1 x.2).2) P

variable (P : Procfs)

/-- The next entry to be created below `d`. -/
def newEntry (d : ProcPath) (n : ProcName) (target : Option Pid) : ProcPath :=
  ⟨P.tree.next, n, target⟩ :: d

def withEntry (e : ProcPath) : Procfs :=
  { P with tree := ⟨e :: P.tree.entries, P.tree.next + 1⟩ }

theorem procCreate_cases (d : ProcPath) (n : ProcName) (target : Option Pid) (memory : Bool) :
    (P.procCreate d n target memory = (none, P) ∧
        (memory = false ∨ P.tree.hasName d n = true)) ∨
      (P.procCreate d n target memory =
          (some (P.newEntry d n target), P.withEntry (P.newEntry d n target)) ∧
        memory = true ∧ P.tree.hasName d n = false) := by
  rcases P.tree.create_cases (d := d) (n := n) (v := target) memory with ⟨h, hno⟩ | ⟨h, hyes⟩
  · exact Or.inl ⟨by simp [procCreate, h], hno⟩
  · exact Or.inr ⟨by simp [procCreate, h, newEntry, withEntry], hyes⟩

/-- `proc_symlink` has no memory for the next link of a scheduler, or its name is in use. -/
def LinkFails (d : SchedulerProcDirs) (memory : Bool) : Prop :=
  memory = false ∨ P.tree.hasName d.workersDir (.link (symlinkName (d.maxWorkers + 1))) = true

/-- A link is made together with its count, or nothing but the pointer in the worker changes. -/
theorem umsSchedulerProcRegisterWorker_cases (p c : Pid) (memory : Bool) (d : SchedulerProcDirs)
    (w : WorkerProcDirs) (hd : P.scheduler p = some d) (hw : P.worker c = some w) :
    (P.umsSchedulerProcRegisterWorker p c memory = (false, { P with
        worker := Function.update P.worker c (some { w with workerLink := .null }) }) ∧
      P.LinkFails d memory) ∨
    ∃ e, e = P.newEntry d.workersDir (.link (symlinkName (d.maxWorkers + 1))) (some c) ∧
      P.umsSchedulerProcRegisterWorker p c memory = (true, { P.withEntry e with
        worker := Function.update P.worker c (some { w with workerLink := .entry e })
        scheduler := Function.update P.scheduler p
          (some { d with nWorkers := d.nWorkers + 1, maxWorkers := d.maxWorkers + 1 }) }) ∧
      memory = true ∧
      P.tree.hasName d.workersDir (.link (symlinkName (d.maxWorkers + 1))) = false := by
  rcases P.procCreate_cases d.workersDir (.link (symlinkName (d.maxWorkers + 1))) (some c) memory
    with ⟨h, hno⟩ | ⟨h, hyes⟩
  · exact Or.inl ⟨by simp [umsSchedulerProcRegisterWorker, hd, hw, h], hno⟩
  · exact Or.inr ⟨_, rfl, by simp [umsSchedulerProcRegisterWorker, hd, hw, h, withEntry], hyes⟩

/-- Links are only added. -/
theorem registerWorkers_nWorkers (p : Pid) (d : SchedulerProcDirs) (hd : P.scheduler p = some d)
    (cs : List (Pid × Bool)) :
    ∃ d', (P.registerWorkers p cs).scheduler p = some d' ∧ d.nWorkers ≤ d'.nWorkers := by
  induction cs generalizing P d with
  | nil => exact ⟨d, hd, Nat.le_refl _⟩
  | cons x cs ih =>
    have hone : ∃ d₁, (P.umsSchedulerProcRegisterWorker p x.1 x.2).2.scheduler p = some d₁ ∧
        d.nWorkers ≤ d₁.nWorkers := by
      cases hw : P.worker x.1 with
      | none => exact ⟨d, by simp [umsSchedulerProcRegisterWorker, hd, hw], Nat.le_refl _⟩
      | some w =>
        rcases P.umsSchedulerProcRegisterWorker_cases p x.1 x.2 d w hd hw with
          ⟨hreg, -⟩ | ⟨e, -, hreg, -⟩
        · rw [hreg]
          exact ⟨d, hd, Nat.le_refl _⟩
        · rw [hreg]
          exact ⟨_, Function.update_self _ _ _, Nat.le_succ _⟩
    obtain ⟨d₁, hd₁, hle⟩ := hone
    obtain ⟨d₂, hd₂, hle₂⟩ := ih _ d₁ hd₁
    exact ⟨d₂, hd₂, hle.trans hle₂⟩

end Procfs

/-- `container_of(curr, struct ums_worker, context)`, which makes sense for contexts only. -/
def Node.worker : Node → Option Pid
  | .context c => some c
  | .head _ => none

/-- The links that `ums_complist_dqcontext` makes for the batch of `c`, and whether the first
could be made. `rest` is the luck of the others, one round of the loop each. -/
def dqcontextLinks (h : Heap Node) (P : Procfs) (p c : Pid) (first : Bool) (rest : List Bool) :
    Option (Bool × Procfs) :=
  match P.umsSchedulerProcRegisterWorker p c first with
  | (false, P) => some (false, P)
  | (true, P) => do
    let curr ← listForEach h (.context c) rest.length (h (.context c)).next
    let workers ← curr.mapM Node.worker
    return (true, P.registerWorkers p (workers.zip rest))

end LinuxUms
