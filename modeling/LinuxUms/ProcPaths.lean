import LinuxUms.CString

/-! The names and the paths of the directories in procfs: the strings of `proc/base.c` and of
`proc/worker.c`, with the buffers they are written to. -/
namespace LinuxUms

open CString

/-- The type `pid_t`. -/
abbrev PidT := BitVec 32

def procPidBuflen : ℕ := 12

def umsProcBasedirName : List Char := "ums".toList

def umsProcBasedirPath : List Char := "/proc/".toList ++ umsProcBasedirName

def umsProcSchedDirName : List Char := "schedulers".toList

def umsProcWorkersDirName : List Char := "workers".toList

/-- What `ums_proc_init` stores in `ums_proc_base_dir_path_len`. -/
def umsProcBaseDirPathLen : ℕ := umsProcBasedirPath.length

/-- Why a path is not made. -/
inductive PathFault where
  -- `-ENOMEM`
  | enomem
  -- a string function writes past the end of the buffer
  | overflow
  deriving DecidableEq

/-- A member `..._path` with its `..._path_size`, which does not count the terminator. -/
structure PathBuffer where
  size : ℕ
  path : Buffer (size + 1)

/-- `snprintf(name, PROC_PID_BUFLEN, "%d", pid)` with the test of what it returns. -/
def procPidName (stack : Buffer procPidBuflen) (pid : PidT) : Option (Buffer procPidBuflen) :=
  let output := decimal pid.toInt
  let retval := output.length
  if retval = 0 then none else some (stack.snprintf (n := 11) output)

/-- The path of `name` in a directory: its size, its buffer, and `strcpy`, `strcat`, `strcat`. -/
def makePath (dirSize : ℕ) (dir name : List Char) (kmalloc : Kmalloc) :
    Except PathFault PathBuffer :=
  let size := dirSize + name.length + 1
  match kmalloc (size + 1) with
  | none => .error .enomem
  | some b =>
    match ((b.strcpy dir).bind (·.strcat ['/'])).bind (·.strcat name) with
    | none => .error .overflow
    | some b => .ok ⟨size, b⟩

/-- In `ums_proc_dirs_init`; the length of the base path is read from the global variable. -/
def pidDirPath (pathLen : ℕ) (procPidName : Buffer procPidBuflen) :
    Kmalloc → Except PathFault PathBuffer :=
  makePath pathLen umsProcBasedirPath procPidName.text

/-- In `ums_proc_dirs_init`. -/
def workersDirPath (pidDir : PathBuffer) : Kmalloc → Except PathFault PathBuffer :=
  makePath pidDir.size pidDir.path.text umsProcWorkersDirName

/-- In `ums_worker_proc_register`. -/
def workerDirPath (workersDir : PathBuffer) (workerPidName : Buffer procPidBuflen) :
    Kmalloc → Except PathFault PathBuffer :=
  makePath workersDir.size workersDir.path.text workerPidName.text

/-- Twelve bytes are enough for every pid. -/
theorem procPidName_text (stack : Buffer procPidBuflen) (pid : PidT) :
    ∃ name, procPidName stack pid = some name ∧ name.text = decimal pid.toInt := by
  have hne : (decimal pid.toInt).length ≠ 0 := by
    intro h
    unfold decimal at h
    split at h
    · cases h
    · exact Nat.toDigits_ne_nil (List.length_eq_zero_iff.mp h)
  refine ⟨_, if_neg hne, ?_⟩
  exact Buffer.snprintf_text_of_le _ _ (nul_notMem_decimal _) (length_decimal_toInt pid)

/-- The buffer holds the path and its terminator, and nothing else. -/
structure PathBuffer.Holds (p : PathBuffer) (s : List Char) : Prop where
  size_eq : p.size = s.length
  text_eq : p.path.text = s
  chars_eq : p.path.chars = s ++ [nul]

theorem PathBuffer.Holds.size_eq_text {p : PathBuffer} {s : List Char} (h : p.Holds s) :
    p.size = p.path.text.length :=
  h.size_eq.trans (congrArg List.length h.text_eq.symm)

/-- What comes of an allocation and of writing `s` to the memory: the path, if there is any
memory. -/
inductive Makes (kmalloc : Kmalloc) (s : List Char) : Except PathFault PathBuffer → Prop where
  | enomem (n : ℕ) (h : kmalloc n = none) : Makes kmalloc s (.error .enomem)
  | ok (p : PathBuffer) (h : p.Holds s) : Makes kmalloc s (.ok p)

theorem Makes.of_memory {memory : (n : ℕ) → Buffer n} {s : List Char}
    {r : Except PathFault PathBuffer} (h : Makes (fun n => some (memory n)) s r) :
    ∃ p, r = .ok p ∧ p.Holds s := by
  cases h with
  | enomem n h => cases h
  | ok p h => exact ⟨p, rfl, h⟩

section MakePath

variable (dirSize : ℕ) (dir name : List Char) (kmalloc : Kmalloc)

/-- A directory's size that is its length makes room for exactly the longer path. -/
theorem makePath_makes (hsize : dirSize = dir.length) (hdir : nul ∉ dir) (hname : nul ∉ name) :
    Makes kmalloc (dir ++ '/' :: name) (makePath dirSize dir name kmalloc) := by
  cases h : kmalloc (dirSize + name.length + 1 + 1) with
  | none =>
    simp only [makePath, h]
    exact .enomem _ h
  | some b =>
    obtain ⟨b₁, h₁, ht₁⟩ := b.strcpy_some dir hdir (by omega)
    have hslash : nul ∉ ['/'] := by decide
    obtain ⟨b₂, h₂, ht₂⟩ := b₁.strcat_some ['/'] hslash (by
      rw [ht₁, List.length_singleton]
      omega)
    obtain ⟨b₃, h₃, ht₃⟩ := b₂.strcat_some name hname (by
      rw [ht₂, ht₁, List.length_append, List.length_singleton]
      omega)
    have htext : b₃.text = dir ++ '/' :: name := by
      rw [ht₃, ht₂, ht₁, List.append_assoc, List.singleton_append]
    have hlen : (dir ++ '/' :: name).length = dirSize + name.length + 1 := by
      rw [List.length_append, List.length_cons, hsize]
      omega
    -- the three calls leave no byte of the buffer over
    have hholds : (⟨_, b₃⟩ : PathBuffer).Holds (dir ++ '/' :: name) := by
      refine ⟨hlen.symm, htext, ?_⟩
      rw [b₃.chars_of_full (by rw [htext, hlen]), htext]
    simp only [makePath, h, h₁, h₂, h₃, Option.bind_some]
    exact .ok _ hholds

end MakePath

/-- The directory `/proc/ums/<opener>`. -/
def openerPath (opener : PidT) : List Char := umsProcBasedirPath ++ '/' :: decimal opener.toInt

example : umsProcBasedirPath = "/proc/ums".toList := by decide +kernel

/-- The directory `/proc/ums/<opener>/workers`. -/
def openerWorkersPath (opener : PidT) : List Char :=
  openerPath opener ++ '/' :: umsProcWorkersDirName

/-- The directory `/proc/ums/<opener>/workers/<worker>`. -/
def workerPath (opener worker : PidT) : List Char :=
  openerWorkersPath opener ++ '/' :: decimal worker.toInt

/-- No decimal name holds a slash, so the names are where the slashes are. -/
theorem workerPath_injective :
    Function.Injective fun x : PidT × PidT => workerPath x.1 x.2 := by
  intro ⟨o, w⟩ ⟨o', w'⟩ h
  have hslash (pid : PidT) : '/' ∉ decimal pid.toInt := by
    intro hc
    rcases mem_decimal _ _ hc with hc | hc <;> revert hc <;> decide
  simp only [workerPath, openerWorkersPath, openerPath, List.append_assoc,
    List.cons_append] at h
  have hrest := (List.cons.inj (List.append_cancel_left h)).2
  have ho : decimal o.toInt = decimal o'.toInt := by
    have hcut := congrArg (List.takeWhile (· ≠ '/')) hrest
    rwa [takeWhile_append_cons _ _ _ (hslash o), takeWhile_append_cons _ _ _ (hslash o')] at hcut
  rw [ho] at hrest
  have hname := List.append_cancel_left (List.cons.inj (List.append_cancel_left hrest)).2
  have ho' : o = o' := BitVec.eq_of_toInt_eq (decimal_injective ho)
  have hw' : w = w' := BitVec.eq_of_toInt_eq (decimal_injective (List.cons.inj hname).2)
  rw [ho', hw']

section Paths

variable {opener worker : PidT} {name : Buffer procPidBuflen} {pidDir workersDir : PathBuffer}
variable (kmalloc : Kmalloc)

theorem pidDirPath_makes (hname : name.text = decimal opener.toInt) :
    Makes kmalloc (openerPath opener) (pidDirPath umsProcBaseDirPathLen name kmalloc) := by
  rw [openerPath, ← hname]
  exact makePath_makes umsProcBaseDirPathLen umsProcBasedirPath name.text kmalloc rfl
    (by decide) name.nul_notMem_text

theorem workersDirPath_makes (hdir : pidDir.Holds (openerPath opener)) :
    Makes kmalloc (openerWorkersPath opener) (workersDirPath pidDir kmalloc) := by
  rw [openerWorkersPath, ← hdir.text_eq]
  exact makePath_makes pidDir.size pidDir.path.text umsProcWorkersDirName kmalloc
    hdir.size_eq_text pidDir.path.nul_notMem_text (by decide)

theorem workerDirPath_makes (hdir : workersDir.Holds (openerWorkersPath opener))
    (hname : name.text = decimal worker.toInt) :
    Makes kmalloc (workerPath opener worker) (workerDirPath workersDir name kmalloc) := by
  rw [workerPath, ← hdir.text_eq, ← hname]
  exact makePath_makes workersDir.size workersDir.path.text name.text kmalloc
    hdir.size_eq_text workersDir.path.nul_notMem_text name.nul_notMem_text

end Paths

/-- Whatever memory the names and the paths are written to. -/
theorem proc_paths_exact :
    (∀ (opener worker : PidT) (stack stack' : Buffer procPidBuflen)
        (memory : Fin 3 → (n : ℕ) → Buffer n),
      ∃ openerName workerName pidDir workersDir workerDir,
        procPidName stack opener = some openerName ∧
        procPidName stack' worker = some workerName ∧
        openerName.text = decimal opener.toInt ∧
        workerName.text = decimal worker.toInt ∧
        pidDirPath umsProcBaseDirPathLen openerName (fun n => some (memory 0 n)) = .ok pidDir ∧
        workersDirPath pidDir (fun n => some (memory 1 n)) = .ok workersDir ∧
        workerDirPath workersDir workerName (fun n => some (memory 2 n)) = .ok workerDir ∧
        pidDir.Holds (openerPath opener) ∧
        workersDir.Holds (openerWorkersPath opener) ∧
        workerDir.Holds (workerPath opener worker)) ∧
    Function.Injective (fun x : PidT × PidT => workerPath x.1 x.2) := by
  refine ⟨fun opener worker stack stack' memory => ?_, workerPath_injective⟩
  obtain ⟨openerName, hopener, hopenerText⟩ := procPidName_text stack opener
  obtain ⟨workerName, hworker, hworkerText⟩ := procPidName_text stack' worker
  obtain ⟨pidDir, hpid, hpidHolds⟩ :=
    (pidDirPath_makes (fun n => some (memory 0 n)) hopenerText).of_memory
  obtain ⟨workersDir, hworkers, hworkersHolds⟩ :=
    (workersDirPath_makes (fun n => some (memory 1 n)) hpidHolds).of_memory
  obtain ⟨workerDir, hdir, hdirHolds⟩ :=
    (workerDirPath_makes (fun n => some (memory 2 n)) hworkersHolds hworkerText).of_memory
  exact ⟨openerName, workerName, pidDir, workersDir, workerDir, hopener, hworker, hopenerText,
    hworkerText, hpid, hworkers, hdir, hpidHolds, hworkersHolds, hdirHolds⟩

end LinuxUms
