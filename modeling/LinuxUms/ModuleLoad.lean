import LinuxUms.ProcPaths
import LinuxUms.ProcTree
import LinuxUms.Transition

/-! Loading the module: `ums_init` of `ums_mod.c` with `ums_proc_init` of `proc/base.c`, and the
opens of the device and the enters that may go on at the same time. The globals of `proc/base.c`
are written by one and read by the other. What names procfs refuses is a parameter: `/proc` itself
takes no directory with the name of a pid. -/
namespace LinuxUms.Load

open CString ProcTree Transition

/-- A directory in procfs with its ancestors; `[]` is `/proc` itself. -/
abbrev ProcDir := Path (List Char) Unit

/-- The path of a directory as a user writes it. -/
def fullPath : ProcDir → List Char
  | [] => "/proc".toList
  | x :: d => fullPath d ++ '/' :: x.name

/-- `__proc_create` refuses a name in `/proc` itself that is the number of a process. -/
def RefusesPids (refuses : ProcDir → List Char → Bool) : Prop :=
  ∀ pid : PidT, 0 < pid.toInt → refuses [] (decimal pid.toInt) = true

/-- Where `ums_init` is. -/
inductive InitStage where
  | start
  -- `ums_caches_init` returned 0
  | caches
  -- `register_ums_device` returned 0
  | registered
  -- `ums_proc_init` has stored the length of the base path
  | pathLen
  -- `ums_init` returned 0
  | loaded
  -- at the labels of the same names; at `cacheInit` the error is returned
  | procInit
  | registerDev
  | cacheInit
  deriving DecidableEq

/-- The device can be opened from its registration on, whatever is left of `ums_init`. -/
def InitStage.openable : InitStage → Bool
  | .registered | .pathLen | .loaded | .procInit => true
  | .start | .caches | .registerDev | .cacheInit => false

/-- The static variables of `proc/base.c`; a null pointer is `none`. -/
structure Globals where
  umsProcBaseDir : Option ProcDir
  umsProcBaseDirPathLen : ℕ
  deriving DecidableEq

/-- The `dirs` of an open device. -/
structure Dirs where
  pidDir : ProcDir
  pidDirPath : PathBuffer
  schedDir : ProcDir
  workersDir : ProcDir
  workersDirPath : PathBuffer

structure WorkerDirs where
  pid : PidT
  workerDir : ProcDir
  workerDirPath : PathBuffer

/-- Where a call of `ums_dev_open` is. -/
inductive OpenStage where
  -- before `ums_proc_dirs_init`
  | begun
  -- with a directory named after the opener
  | pidDir (procPidName : Buffer procPidBuflen) (pidDir : ProcDir)
  | pidDirPath (pidDir : ProcDir) (path : PathBuffer)
  -- returned 0, with the workers that have entered since
  | opened (dirs : Dirs) (workers : List WorkerDirs)
  -- returned an error, or wrote past the end of a buffer
  | failed

structure Open where
  pid : PidT
  stage : OpenStage

structure State where
  stage : InitStage
  globals : Globals
  tree : Tree (List Char) Unit
  opens : ℕ → Option Open
  -- some string was written past the end of its buffer
  overrun : Bool

def State.init : State where
  stage := .start
  globals := ⟨none, 0⟩
  tree := .empty
  opens _ := none
  overrun := false

section Procfs

variable (refuses : ProcDir → List Char → Bool)

/-- `proc_mkdir` and `proc_create_data`, which fail if the name is refused or in use. -/
def procMkdir (T : Tree (List Char) Unit) (d : ProcDir) (n : List Char) (memory : Bool) :
    Option ProcDir × Tree (List Char) Unit :=
  T.create d n () (memory && !refuses d n)

/-- What happens in `ums_dev_open` behind the path of the pid directory. -/
structure OpenRest where
  schedDir : Bool
  workersDir : Bool
  workersDirPath : Kmalloc
  schedulersTable : Bool
  workersTable : Bool

/-- The rest of `ums_proc_dirs_init` and of `ums_dev_open`, with the labels for what fails. -/
def openRest (T : Tree (List Char) Unit) (pidDir : ProcDir) (path : PathBuffer) (f : OpenRest) :
    Tree (List Char) Unit × Except PathFault Dirs :=
  match procMkdir refuses T pidDir umsProcSchedDirName f.schedDir with
  | (none, T) => (T.remove pidDir, .error .enomem)
  | (some schedDir, T) =>
    match procMkdir refuses T pidDir umsProcWorkersDirName f.workersDir with
    | (none, T) => ((T.remove schedDir).remove pidDir, .error .enomem)
    | (some workersDir, T) =>
      match workersDirPath path f.workersDirPath with
      | .error .overflow => (T, .error .overflow)
      | .error .enomem =>
        (((T.remove workersDir).remove schedDir).remove pidDir, .error .enomem)
      | .ok p =>
        if f.schedulersTable && f.workersTable then
          (T, .ok ⟨pidDir, path, schedDir, workersDir, p⟩)
        else
          -- `ums_proc_dirs_destroy`
          (((T.remove pidDir).remove schedDir).remove workersDir, .error .enomem)

/-- What happens in `ums_worker_proc_register`. -/
structure WorkerLuck where
  stack : Buffer procPidBuflen
  workerDir : Bool
  workerDirPath : Kmalloc
  workerInfoDir : Bool

def umsWorkerProcRegister (T : Tree (List Char) Unit) (dirs : Dirs) (pid : PidT)
    (f : WorkerLuck) : Tree (List Char) Unit × Except PathFault WorkerDirs :=
  match procPidName f.stack pid with
  | none => (T, .error .enomem)
  | some name =>
    match procMkdir refuses T dirs.workersDir name.text f.workerDir with
    | (none, T) => (T, .error .enomem)
    | (some workerDir, T) =>
      match workerDirPath dirs.workersDirPath name f.workerDirPath with
      | .error .overflow => (T, .error .overflow)
      | .error .enomem => (T.remove workerDir, .error .enomem)
      | .ok p =>
        match procMkdir refuses T workerDir "info".toList f.workerInfoDir with
        | (none, T) => (T.remove workerDir, .error .enomem)
        | (some _, T) => (T, .ok ⟨pid, workerDir, p⟩)

/-- What happens in `ums_scheduler_proc_register`, which builds no path. -/
structure SchedulerLuck where
  stack : Buffer procPidBuflen
  schedulerDir : Bool
  schedulerInfoDir : Bool
  workersDir : Bool

def umsSchedulerProcRegister (T : Tree (List Char) Unit) (dirs : Dirs) (pid : PidT)
    (f : SchedulerLuck) : Tree (List Char) Unit :=
  match procPidName f.stack pid with
  | none => T
  | some name =>
    match procMkdir refuses T dirs.schedDir name.text f.schedulerDir with
    | (none, T) => T
    | (some schedulerDir, T) =>
      match procMkdir refuses T schedulerDir "info".toList f.schedulerInfoDir with
      | (none, T) => T.remove schedulerDir
      | (some infoDir, T) =>
        match procMkdir refuses T schedulerDir umsProcWorkersDirName f.workersDir with
        | (none, T) => (T.remove infoDir).remove schedulerDir
        | (some _, T) => T

inductive Act where
  -- the steps of `ums_init`
  | umsCachesInit (ok : Bool)
  | registerUmsDevice (ok : Bool)
  | storePathLen
  | mkdirBase (memory : Bool)
  | unregisterUmsDevice
  | umsCachesDestroy
  -- the steps of the open `i`
  | devOpen (i : ℕ) (pid : PidT) (rdonly memory : Bool)
  | mkdirPid (i : ℕ) (stack : Buffer procPidBuflen) (memory : Bool)
  | pidDirPath (i : ℕ) (kmalloc : Kmalloc)
  | openRest (i : ℕ) (f : OpenRest)
  -- enters on the device that open `i` returned, by any process
  | enterScheduler (i : ℕ) (pid : PidT) (f : SchedulerLuck)
  | enterWorker (i : ℕ) (pid : PidT) (f : WorkerLuck)

namespace State

def setOpen (s : State) (i : ℕ) (pid : PidT) (stage : OpenStage) : State :=
  { s with opens := Function.update s.opens i (some ⟨pid, stage⟩) }

/-- The next stage of `ums_init`, if it is at `before`. -/
def advance (s : State) (before after : InitStage) : Option State :=
  if s.stage = before then some { s with stage := after } else none

/-- The end of a registration that has come to `r`. -/
def finish {α : Type} (s : State) (i : ℕ) (pid : PidT) (stage : OpenStage) (f : α → OpenStage) :
    Except PathFault α → State
  | .ok x => s.setOpen i pid (f x)
  | .error .enomem => s.setOpen i pid stage
  -- what happens after such a write is not followed up
  | .error .overflow => { s.setOpen i pid .failed with overrun := true }

def step (s : State) : Act → Option State
  | .umsCachesInit ok => s.advance .start (if ok then .caches else .cacheInit)
  | .registerUmsDevice ok => s.advance .caches (if ok then .registered else .registerDev)
  | .storePathLen =>
    { s with
      globals.umsProcBaseDirPathLen := umsProcBaseDirPathLen : State }.advance .registered .pathLen
  | .mkdirBase memory =>
    match procMkdir refuses s.tree [] umsProcBasedirName memory with
    | (none, _) => s.advance .pathLen .procInit
    | (some e, T) =>
      { s with tree := T, globals.umsProcBaseDir := some e : State }.advance .pathLen .loaded
  | .unregisterUmsDevice => s.advance .procInit .registerDev
  | .umsCachesDestroy => s.advance .registerDev .cacheInit
  -- the pid of a process is positive
  | .devOpen i pid rdonly memory =>
    if s.stage.openable ∧ s.opens i = none ∧ 0 < pid.toInt then
      some (s.setOpen i pid (if rdonly && memory then .begun else .failed))
    else none
  | .mkdirPid i stack memory =>
    match s.opens i with
    | some ⟨pid, .begun⟩ =>
      match procPidName stack pid with
      | none => some (s.setOpen i pid .failed)
      | some name =>
        -- a null parent is `/proc`
        match procMkdir refuses s.tree (s.globals.umsProcBaseDir.getD []) name.text memory with
        | (none, _) => some (s.setOpen i pid .failed)
        | (some e, T) => some ({ s with tree := T }.setOpen i pid (.pidDir name e))
    | _ => none
  | .pidDirPath i kmalloc =>
    match s.opens i with
    | some ⟨pid, .pidDir name dir⟩ =>
      match LinuxUms.pidDirPath s.globals.umsProcBaseDirPathLen name kmalloc with
      | .error .enomem => some ({ s with tree := s.tree.remove dir }.setOpen i pid .failed)
      | r => some (s.finish i pid .failed (.pidDirPath dir) r)
    | _ => none
  | .openRest i f =>
    match s.opens i with
    | some ⟨pid, .pidDirPath dir path⟩ =>
      let r := Load.openRest refuses s.tree dir path f
      some ({ s with tree := r.1 }.finish i pid .failed (.opened · []) r.2)
    | _ => none
  | .enterScheduler i pid f =>
    match s.opens i with
    | some ⟨_, .opened dirs _⟩ =>
      some { s with tree := umsSchedulerProcRegister refuses s.tree dirs pid f }
    | _ => none
  | .enterWorker i pid f =>
    match s.opens i with
    | some ⟨opener, .opened dirs ws⟩ =>
      let r := umsWorkerProcRegister refuses s.tree dirs pid f
      some ({ s with tree := r.1 }.finish i opener (.opened dirs ws)
        (fun w => .opened dirs (w :: ws)) r.2)
    | _ => none

end State

end Procfs

theorem fullPath_base (n : ℕ) : fullPath [⟨n, umsProcBasedirName, ()⟩] = umsProcBasedirPath := by
  have h : umsProcBasedirPath = "/proc".toList ++ '/' :: umsProcBasedirName := by decide +kernel
  rw [h]
  rfl

variable {refuses : ProcDir → List Char → Bool}

theorem fullPath_procMkdir {T T' : Tree (List Char) Unit} {d e : ProcDir} {n : List Char}
    {memory : Bool} (h : procMkdir refuses T d n memory = (some e, T')) :
    fullPath e = fullPath d ++ '/' :: n ∧ d <:+ e := by
  unfold procMkdir at h
  rcases T.create_cases (d := d) (n := n) (v := ()) (memory && !refuses d n) with ⟨hc, -⟩ | ⟨hc, -⟩
  · rw [hc] at h
    cases h
  · rw [hc] at h
    cases h
    exact ⟨rfl, List.suffix_cons _ _⟩

/-- A pid has no directory in `/proc` itself. -/
theorem procMkdir_refused (hrefuses : RefusesPids refuses) (T : Tree (List Char) Unit) {pid : PidT}
    (hpid : 0 < pid.toInt) (memory : Bool) :
    procMkdir refuses T [] (decimal pid.toInt) memory = (none, T) := by
  simp [procMkdir, Tree.create, hrefuses pid hpid]

/-- The directories of opener `pid` are below `base`, under the paths that are written down. -/
structure Dirs.Placed (d : Dirs) (base : ProcDir) (pid : PidT) : Prop where
  below : base <:+ d.pidDir ∧ d.pidDir <:+ d.schedDir ∧ d.pidDir <:+ d.workersDir
  pidDir : fullPath d.pidDir = openerPath pid
  schedDir : fullPath d.schedDir = openerPath pid ++ '/' :: umsProcSchedDirName
  workersDir : fullPath d.workersDir = openerWorkersPath pid
  pidDirPath : d.pidDirPath.Holds (openerPath pid)
  workersDirPath : d.workersDirPath.Holds (openerWorkersPath pid)

structure WorkerDirs.Placed (w : WorkerDirs) (d : Dirs) (pid : PidT) : Prop where
  below : d.workersDir <:+ w.workerDir
  workerDir : fullPath w.workerDir = workerPath pid w.pid
  workerDirPath : w.workerDirPath.Holds (workerPath pid w.pid)

/-- A call ends with `-ENOMEM` or with a result, and writes no string too long for its buffer. -/
inductive Ends {α : Type} (P : α → Prop) : Except PathFault α → Prop where
  | enomem : Ends P (.error .enomem)
  | ok (x : α) (h : P x) : Ends P (.ok x)

theorem openRest_ends (T : Tree (List Char) Unit) {dir base : ProcDir} {path : PathBuffer}
    {pid : PidT} (f : OpenRest) (hbase : base <:+ dir) (hdir : fullPath dir = openerPath pid)
    (hpath : path.Holds (openerPath pid)) :
    Ends (Dirs.Placed · base pid) (openRest refuses T dir path f).2 := by
  unfold openRest
  split
  · exact .enomem
  · rename_i schedDir T₁ hsched
    split
    · exact .enomem
    · rename_i workersDir T₂ hworkers
      obtain ⟨hsp, hsb⟩ := fullPath_procMkdir hsched
      obtain ⟨hwp, hwb⟩ := fullPath_procMkdir hworkers
      have hmake := workersDirPath_makes f.workersDirPath hpath
      split
      · rename_i h
        rw [h] at hmake
        cases hmake
      · exact .enomem
      · rename_i p h
        rw [h] at hmake
        cases hmake with
        | ok _ hp =>
          split
          · refine .ok _ ⟨⟨hbase, hsb, hwb⟩, hdir, ?_, ?_, hpath, hp⟩
            · rw [hsp, hdir]
            · rw [hwp, hdir]
              rfl
          · exact .enomem

theorem umsWorkerProcRegister_ends (T : Tree (List Char) Unit) {d : Dirs} {base : ProcDir}
    {opener : PidT} (pid : PidT) (f : WorkerLuck) (hd : d.Placed base opener) :
    Ends (WorkerDirs.Placed · d opener) (umsWorkerProcRegister refuses T d pid f).2 := by
  obtain ⟨name, hname, htext⟩ := procPidName_text f.stack pid
  simp only [umsWorkerProcRegister, hname]
  split
  · exact .enomem
  · rename_i workerDir T₁ hworker
    obtain ⟨hwp, hwb⟩ := fullPath_procMkdir hworker
    have hmake := workerDirPath_makes f.workerDirPath hd.workersDirPath htext
    split
    · rename_i h
      rw [h] at hmake
      cases hmake
    · exact .enomem
    · rename_i p h
      rw [h] at hmake
      cases hmake with
      | ok _ hp =>
        split
        · exact .enomem
        · refine .ok _ ⟨hwb, ?_, hp⟩
          rw [hwp, hd.workersDir, htext]
          rfl

/-- The globals as `ums_proc_init` leaves them. -/
structure Globals.Ready (g : Globals) (base : ProcDir) : Prop where
  baseDir : g.umsProcBaseDir = some base
  path : fullPath base = umsProcBasedirPath
  pathLen : g.umsProcBaseDirPathLen = LinuxUms.umsProcBaseDirPathLen

/-- What the calls that are over have made for an open at its stage. -/
def OpenStage.Good (g : Globals) (pid : PidT) : OpenStage → Prop
  | .begun | .failed => True
  | .pidDir name dir =>
    ∃ base, g.Ready base ∧ base <:+ dir ∧ fullPath dir = openerPath pid ∧
      name.text = decimal pid.toInt
  | .pidDirPath dir path =>
    ∃ base, g.Ready base ∧ base <:+ dir ∧ fullPath dir = openerPath pid ∧
      path.Holds (openerPath pid)
  | .opened d ws => ∃ base, g.Ready base ∧ d.Placed base pid ∧ ∀ w ∈ ws, w.Placed d pid

/-- While there is no base directory, an open that relies on nothing is the only one. -/
theorem OpenStage.Good.of_null {g : Globals} {pid : PidT} {st : OpenStage} (h : st.Good g pid)
    (hnull : g.umsProcBaseDir = none) (g' : Globals) : st.Good g' pid := by
  have hready (base : ProcDir) (hr : g.Ready base) : False := by
    have hsome := hr.baseDir
    rw [hnull] at hsome
    cases hsome
  cases st with
  | begun => trivial
  | failed => trivial
  | pidDir name dir =>
    obtain ⟨base, hr, -⟩ := h
    exact (hready base hr).elim
  | pidDirPath dir path =>
    obtain ⟨base, hr, -⟩ := h
    exact (hready base hr).elim
  | opened d ws =>
    obtain ⟨base, hr, -⟩ := h
    exact (hready base hr).elim

structure Inv (s : State) : Prop where
  loaded : s.stage = .loaded → ∃ base, s.globals.Ready base
  notLoaded : s.stage ≠ .loaded → s.globals.umsProcBaseDir = none
  pathLen : s.stage = .pathLen → s.globals.umsProcBaseDirPathLen = umsProcBaseDirPathLen
  opens : ∀ i o, s.opens i = some o → 0 < o.pid.toInt ∧ o.stage.Good s.globals o.pid
  overrun : s.overrun = false

namespace Inv

theorem init : Inv State.init where
  loaded h := by cases h
  notLoaded _ := rfl
  pathLen h := by cases h
  opens i o h := by cases h
  overrun := rfl

variable {s s' : State} {i : ℕ} {pid : PidT}

theorem withTree (h : Inv s) (T : Tree (List Char) Unit) : Inv { s with tree := T } :=
  ⟨h.loaded, h.notLoaded, h.pathLen, h.opens, h.overrun⟩

theorem setOpen (h : Inv s) {st : OpenStage} (hpid : 0 < pid.toInt)
    (hst : st.Good s.globals pid) : Inv (s.setOpen i pid st) := by
  refine ⟨h.loaded, h.notLoaded, h.pathLen, ?_, h.overrun⟩
  intro j o hj
  by_cases hji : j = i
  · have hself : some ⟨pid, st⟩ = some o := (Function.update_self i _ _).symm.trans (hji ▸ hj)
    cases hself
    exact ⟨hpid, hst⟩
  · exact h.opens j o ((Function.update_of_ne hji _ _).symm.trans hj)

theorem finish (h : Inv s) {α : Type} {P : α → Prop} {st : OpenStage} {f : α → OpenStage}
    {r : Except PathFault α} (hr : Ends P r) (hpid : 0 < pid.toInt) (hst : st.Good s.globals pid)
    (hf : ∀ x, P x → (f x).Good s.globals pid) : Inv (s.finish i pid st f r) := by
  cases hr with
  | enomem => exact h.setOpen hpid hst
  | ok x hx => exact h.setOpen hpid (hf x hx)

/-- `ums_init` goes on without a word about the globals. -/
theorem advance (h : Inv s) {before after : InitStage} (hs : s.advance before after = some s')
    (hb : before ≠ .loaded) (ha : after ≠ .loaded) (ha' : after ≠ .pathLen) : Inv s' := by
  unfold State.advance at hs
  split at hs
  · rename_i hstage
    cases hs
    exact ⟨fun he => absurd he ha, fun _ => h.notLoaded (hstage ▸ hb), fun he => absurd he ha',
      h.opens, h.overrun⟩
  · cases hs

theorem storePathLen (h : Inv s) (hs : s.step refuses .storePathLen = some s') : Inv s' := by
  simp only [State.step, State.advance] at hs
  split at hs
  · rename_i hstage
    have hnull : s.globals.umsProcBaseDir = none := h.notLoaded (by rw [hstage]; decide)
    cases hs
    exact ⟨fun he => (by cases he), fun _ => hnull, fun _ => rfl,
      fun i o ho => (h.opens i o ho).imp id (·.of_null hnull _), h.overrun⟩
  · cases hs

theorem mkdirBase (h : Inv s) {memory : Bool} (hs : s.step refuses (.mkdirBase memory) = some s') :
    Inv s' := by
  simp only [State.step] at hs
  split at hs
  · exact h.advance hs (by decide) (by decide) (by decide)
  · rename_i e T hc
    unfold State.advance at hs
    split at hs
    · rename_i hstage
      have hnull : s.globals.umsProcBaseDir = none := h.notLoaded (by rw [hstage]; decide)
      have hpath : fullPath e = umsProcBasedirPath := by
        rw [(fullPath_procMkdir hc).1]
        exact fullPath_base 0
      cases hs
      exact ⟨fun _ => ⟨e, rfl, hpath, h.pathLen hstage⟩, fun he => absurd rfl he,
        fun he => (by cases he),
        fun i o ho => (h.opens i o ho).imp id (·.of_null hnull _), h.overrun⟩
    · cases hs

/-- An open makes its first directory below the base directory, or not at all. -/
theorem mkdirPid (h : Inv s) (hrefuses : RefusesPids refuses)
    {stack : Buffer procPidBuflen} {memory : Bool}
    (hs : s.step refuses (.mkdirPid i stack memory) = some s') : Inv s' := by
  simp only [State.step] at hs
  split at hs
  · rename_i pid ho
    obtain ⟨hpid, -⟩ := h.opens i _ ho
    obtain ⟨name, hname, htext⟩ := procPidName_text stack pid
    simp only [hname] at hs
    by_cases hload : s.stage = .loaded
    · obtain ⟨base, hr⟩ := h.loaded hload
      simp only [hr.baseDir, Option.getD_some] at hs
      split at hs
      · cases hs
        exact h.setOpen hpid trivial
      · rename_i e T hc
        obtain ⟨hp, hb⟩ := fullPath_procMkdir hc
        cases hs
        refine (h.withTree T).setOpen hpid ⟨base, hr, hb, ?_, htext⟩
        rw [hp, hr.path, htext]
        rfl
    · -- a null parent is `/proc`, which does not take the name of a pid
      rw [h.notLoaded hload, Option.getD_none, htext, procMkdir_refused hrefuses _ hpid] at hs
      cases hs
      exact h.setOpen hpid trivial
  · cases hs

theorem pidDirPath (h : Inv s) {kmalloc : Kmalloc}
    (hs : s.step refuses (.pidDirPath i kmalloc) = some s') : Inv s' := by
  simp only [State.step] at hs
  split at hs
  · rename_i pid name dir ho
    obtain ⟨hpid, base, hr, hb, hdir, htext⟩ := h.opens i _ ho
    have hmake := pidDirPath_makes kmalloc htext
    rw [← hr.pathLen] at hmake
    split at hs
    · cases hs
      exact (h.withTree _).setOpen hpid trivial
    · cases hs
      generalize LinuxUms.pidDirPath s.globals.umsProcBaseDirPathLen name kmalloc = r at hmake
      cases hmake with
      | enomem => exact h.setOpen hpid trivial
      | ok p hp => exact h.setOpen hpid ⟨base, hr, hb, hdir, hp⟩
  · cases hs

theorem openRest (h : Inv s) {f : OpenRest}
    (hs : s.step refuses (.openRest i f) = some s') : Inv s' := by
  simp only [State.step] at hs
  split at hs
  · rename_i pid dir path ho
    obtain ⟨hpid, base, hr, hb, hdir, hpath⟩ := h.opens i _ ho
    cases hs
    refine (h.withTree _).finish (openRest_ends s.tree f hb hdir hpath) hpid trivial ?_
    intro d hd
    exact ⟨base, hr, hd, fun w hw => by cases hw⟩
  · cases hs

theorem enterWorker (h : Inv s) {f : WorkerLuck}
    (hs : s.step refuses (.enterWorker i pid f) = some s') : Inv s' := by
  simp only [State.step] at hs
  split at hs
  · rename_i opener d ws ho
    obtain ⟨hopener, base, hr, hd, hws⟩ := h.opens i _ ho
    cases hs
    refine (h.withTree _).finish (umsWorkerProcRegister_ends s.tree pid f hd) hopener
      ⟨base, hr, hd, hws⟩ ?_
    intro w hw
    refine ⟨base, hr, hd, fun v hv => ?_⟩
    rcases List.mem_cons.mp hv with rfl | hv
    · exact hw
    · exact hws v hv
  · cases hs

theorem step (h : Inv s) (hrefuses : RefusesPids refuses) (a : Act)
    (hs : s.step refuses a = some s') : Inv s' := by
  cases a with
  | umsCachesInit ok =>
    cases ok <;> exact h.advance hs (by decide) (by decide) (by decide)
  | registerUmsDevice ok =>
    cases ok <;> exact h.advance hs (by decide) (by decide) (by decide)
  | storePathLen => exact h.storePathLen hs
  | mkdirBase memory => exact h.mkdirBase hs
  | unregisterUmsDevice => exact h.advance hs (by decide) (by decide) (by decide)
  | umsCachesDestroy => exact h.advance hs (by decide) (by decide) (by decide)
  | devOpen i pid rdonly memory =>
    simp only [State.step] at hs
    split at hs
    · rename_i hok
      cases hs
      apply h.setOpen hok.2.2
      split <;> trivial
    · cases hs
  | mkdirPid i stack memory => exact h.mkdirPid hrefuses hs
  | pidDirPath i kmalloc => exact h.pidDirPath hs
  | openRest i f => exact h.openRest hs
  | enterScheduler i pid f =>
    simp only [State.step] at hs
    split at hs
    · cases hs
      exact h.withTree _
    · cases hs
  | enterWorker i pid f => exact h.enterWorker hs

end Inv

end LinuxUms.Load
