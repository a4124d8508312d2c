import LinuxUms.Handlers
import LinuxUms.Transition

/-! Where the handlers hold spinlocks and have read sections open. Every operation has a level: the
number of read sections and of spinlocks around it, and whether a worker is on its way out of the
table. The code of every thread keeps to the levels of its operations on all paths. -/
namespace LinuxUms

open Transition

namespace Op

/-- The read sections and the spinlocks that are open around an operation. -/
def nesting : Op → ℤ × ℤ
  | rcuReadLock _ | schedule | allocUmsComplist | idrPreload _ | idrLockAlloc _
  | umsComplistInit _ _ | copyId _ | idrLockRemove .undo _ | freeUmsComplist _ | copyArgs _ _
  | allocContext _ _ | procRegister _ _ | insertContext _ _ | putUnassigned _ | suspendWorker _
  | allocStartup _ _ | addLock .enter _ _ | addWake .enter _ | eventLock .startup _
  | eventWake .startup _ | copyListId _ | copyContextId _ | destroyLock _
  | putUmsComplist (.scheduler _) _ | wakeUpAll (.scheduler _) _
  | idrLockRemove (.release (.scheduler _)) _ | callRcu (.scheduler _) _
  | procRemove (.scheduler _) | removeScheduler _ | putUmsComplist .entering _
  | wakeUpAll .entering _ | idrLockRemove (.release .entering) _ | callRcu .entering _
  | procRemove .entering | removeWorker .entering => (0, 0)
  | idrAlloc _ | idrUnlockAlloc _ _ | idrRemove .undo _ | idrUnlockRemove .undo _
  | addLink .enter _ _ | addUnlock .enter _ | eventAdd .startup _ | eventUnlock .startup _
  | dropEvents _ | destroyUnlock _ | idrRemove (.release (.scheduler _)) _
  | idrUnlockRemove (.release (.scheduler _)) _ | idrRemove (.release .entering) _
  | idrUnlockRemove (.release .entering) _ => (0, 1)
  | idrRemove _ _ | idrUnlockRemove _ _ | addLink _ _ _ | addUnlock _ _
  | eventAdd _ _ | eventUnlock _ _ | takeTest _ | takeUnlockWait _ | takeFirst _
  | takeUnlock _ _ => (1, 1)
  | _ => (1, 0)

end Op

/-- A lookup that fails in these calls is followed by an unlock of its own. -/
def Find.nestingAfter : Find → ℤ × ℤ
  | .complist (.enter _) _ | .exec _ | .yield => (0, 0)
  | _ => (1, 0)

namespace Op

/-- The same when the operation and all that it leads to are done. No lock is held then. -/
def nestingAfter : Op → ℤ × ℤ
  | rcuReadLock f | find f => f.nestingAfter
  | rcuReadUnlock | getUmsComplist _ _ | enterUnlock _ _ | allocYieldEvent => (0, 0)
  | op => (op.nesting.1, 0)

/-- The worker of the thread has put its list and is still in the table. -/
def detached : Op → Bool
  | wakeUpAll .worker _ | idrLockRemove (.release .worker) _ | idrRemove (.release .worker) _
  | idrUnlockRemove (.release .worker) _ | callRcu .worker _ | procRemove .worker
  | removeWorker .worker => true
  | _ => false

def detachedAfter : Op → Bool
  | removeWorker _ => false
  | op => op.detached

def before (op : Op) : (ℤ × ℤ) × Bool := (op.nesting, op.detached)

def after (op : Op) : (ℤ × ℤ) × Bool := (op.nestingAfter, op.detachedAfter)

/-- The operations that may sleep and stand inside a read section or under a spinlock: the
`idr_alloc` of `IDR_L_ALLOC`, the waits of the two dequeues, the links and the copy of
`ums_complist_dqcontext`, the copies of `ums_complist_next_context` and `ums_sched_dqevent`, and
the events of `ums_worker_yield` and `ums_worker_end`. -/
def atomicSite : Op → Bool
  | idrAlloc _ | takeWait _ | symlinkFirst _ _ _ _ | symlinkRest _ _ _ (_ :: _) | copyContext _ _
  | copyNext | copyEvent _ | allocYieldEvent | allocEndEvent => true
  | _ => false

theorem nesting_of_maySleep (op : Op) (h : op.maySleep = true) (hsite : op.atomicSite = false) :
    op.nesting = (0, 0) := by
  cases op with
  | schedule | allocUmsComplist | idrPreload _ | copyId _ | copyArgs _ _ | allocContext _ _
  | procRegister _ _ | allocStartup _ _ | copyListId _ | copyContextId _ => rfl
  | idrAlloc _ | takeWait _ | symlinkFirst _ _ _ _ | copyContext _ _ | copyNext | copyEvent _
  | allocYieldEvent | allocEndEvent => cases hsite
  | symlinkRest _ _ _ cs =>
    cases cs with
    | nil => cases h
    | cons _ _ => cases hsite
  | _ => cases h

theorem maySleep_of_atomicSite (op : Op) (h : op.atomicSite = true) :
    op.maySleep = true ∧ (0 < op.nesting.1 ∨ 0 < op.nesting.2) := by
  cases op with
  | idrAlloc _ => exact ⟨rfl, Or.inr Int.one_pos⟩
  | takeWait _ | symlinkFirst _ _ _ _ | copyContext _ _ | copyNext | copyEvent _ | allocYieldEvent
  | allocEndEvent => exact ⟨rfl, Or.inl Int.one_pos⟩
  | symlinkRest _ _ _ cs =>
    cases cs with
    | nil => cases h
    | cons _ _ => exact ⟨rfl, Or.inl Int.one_pos⟩
  | _ => cases h

end Op

namespace Kernel

variable {s s' : Kernel} {t : Pid} {luck : OpLuck} {ops : List Op}

theorem useComplist_some {a : Addr} {f : ComplistObj → Outcome} {r : Outcome}
    (h : s.useComplist a f = some r) :
    (s.complist a = none ∧ r = (s, none)) ∨ ∃ o, s.complist a = some o ∧ r = f o := by
  unfold useComplist at h
  split at h
  · rename_i ha
    exact Or.inl ⟨ha, (Option.some.inj h).symm⟩
  · rename_i o ha
    exact Or.inr ⟨o, ha, (Option.some.inj h).symm⟩

theorem useScheduler_some {q : Addr} {f : SchedulerObj → Outcome} {r : Outcome}
    (h : s.useScheduler q f = some r) :
    (s.scheduler q = none ∧ r = (s, none)) ∨ ∃ y, s.scheduler q = some y ∧ r = f y := by
  unfold useScheduler at h
  split at h
  · rename_i hq
    exact Or.inl ⟨hq, (Option.some.inj h).symm⟩
  · rename_i y hq
    exact Or.inr ⟨y, hq, (Option.some.inj h).symm⟩

theorem spinLock_some {l : SpinLock} {r : Outcome} (h : s.spinLock t l ops = some r) :
    (s.lockAlive l = false ∧ r = (s, none)) ∨
      r = ({ s with held := Function.update s.held l (some t) }, some ops) := by
  unfold spinLock at h
  split at h
  · rename_i hl
    exact Or.inl ⟨hl, (Option.some.inj h).symm⟩
  split at h
  · exact Or.inr (Option.some.inj h).symm
  · cases h

theorem spinUnlock_some {l : SpinLock} {r : Outcome} (h : s.spinUnlock l ops = some r) :
    (s.lockAlive l = false ∧ r = (s, none)) ∨
      r = ({ s with held := Function.update s.held l none }, some ops) := by
  unfold spinUnlock at h
  split at h
  · rename_i hl
    exact Or.inl ⟨hl, (Option.some.inj h).symm⟩
  · exact Or.inr (Option.some.inj h).symm

theorem useComplist_ops {a : Addr} {f : ComplistObj → Outcome}
    (h : s.useComplist a f = some (s', some ops)) : ∃ o, (f o).2 = some ops := by
  rcases useComplist_some h with ⟨-, hr⟩ | ⟨o, -, hr⟩
  · cases hr
  · exact ⟨o, congrArg Prod.snd hr.symm⟩

theorem useScheduler_ops {q : Addr} {f : SchedulerObj → Outcome}
    (h : s.useScheduler q f = some (s', some ops)) : ∃ y, (f y).2 = some ops := by
  rcases useScheduler_some h with ⟨-, hr⟩ | ⟨y, -, hr⟩
  · cases hr
  · exact ⟨y, congrArg Prod.snd hr.symm⟩

theorem spinLock_ops {l : SpinLock} {xs : List Op}
    (h : s.spinLock t l xs = some (s', some ops)) : xs = ops := by
  rcases spinLock_some h with ⟨-, hr⟩ | hr
  · cases hr
  · exact (Option.some.inj (congrArg Prod.snd hr)).symm

theorem spinUnlock_ops {l : SpinLock} {xs : List Op}
    (h : s.spinUnlock l xs = some (s', some ops)) : xs = ops := by
  rcases spinUnlock_some h with ⟨-, hr⟩ | hr
  · cases hr
  · exact (Option.some.inj (congrArg Prod.snd hr)).symm

/-- A lookup leads to code for a thread inside a read section. -/
theorem lookup_flow (f : Find) :
    flow Op.before Op.after ((1, 0), false) (s.lookup t f) = some (Op.find f).after := by
  cases f with
  | complist u i =>
    rcases u with - | - | - | - <;> cases hi : s.idr i <;> simp only [lookup, hi] <;> rfl
  | context c => cases hc : s.workers c <;> simp only [lookup, hc] <;> rfl
  | events => cases hq : s.schedulers t <;> simp only [lookup, hq] <;> rfl
  | exec w =>
    cases hw : s.workers w <;> cases hq : s.schedulers t <;> simp only [lookup, hw, hq] <;> rfl
  | yield => cases hw : s.workers t <;> simp only [lookup, hw] <;> rfl
  | finish => cases hw : s.workers t <;> simp only [lookup, hw] <;> rfl

end Kernel

/-- The level behind an operation. The error path of a scheduler that gets no startup event unlocks
a section that is not open, as if it were inside one. -/
def Op.nestingDuring (luck : OpLuck) : Op → ℤ × ℤ
  | .allocStartup _ _ => if luck.ok then (0, 0) else (1, 0)
  | op => (op.nesting.1 + op.rcuStep, op.nesting.2 + op.spinStep)

theorem Op.nestingDuring_allocStartup (luck : OpLuck) (a q : Addr) :
    (Op.allocStartup a q).nestingDuring luck = if luck.ok then (0, 0) else (1, 0) := rfl

def Op.detachedDuring : Op → Bool
  | .putUmsComplist .worker _ => true
  | op => op.detachedAfter

def Op.during (luck : OpLuck) (op : Op) : (ℤ × ℤ) × Bool :=
  (op.nestingDuring luck, op.detachedDuring)

namespace Kernel

variable {s s' : Kernel} {t : Pid} {luck : OpLuck} {ops : List Op}

theorem insertContext_flow (r : Role) (i : ListId) (h : (s.insertContext t i r).2 = some ops) :
    flow Op.before Op.after ((0, 0), false) ops = some ((0, 0), false) := by
  cases r with
  | worker =>
    simp only [insertContext] at h
    split at h <;> obtain rfl := Option.some.inj h <;> rfl
  | scheduler =>
    simp only [insertContext] at h
    split at h <;> obtain rfl := Option.some.inj h <;> rfl

/-- What an operation leads to keeps to the levels. -/
theorem exec_flow (op : Op) (h : s.exec t luck op = some (s', some ops)) :
    flow Op.before Op.after (op.during luck) ops = some op.after := by
  -- one case per operation: what comes next has the nesting that this one leaves
  cases op with
  | rcuReadLock _ | rcuReadUnlock | schedule | copyNext | idrPreload _ | freeUmsComplist _
  | removeScheduler _ =>
    obtain rfl := Option.some.inj (congrArg Prod.snd (Option.some.inj h))
    rfl
  | removeWorker p | procRemove p | callRcu p a =>
    obtain rfl := Option.some.inj (congrArg Prod.snd (Option.some.inj h))
    cases p <;> rfl
  | enterUnlock e a =>
    obtain rfl := Option.some.inj (congrArg Prod.snd (Option.some.inj h))
    cases e <;> rfl
  | find f =>
    obtain rfl := Option.some.inj (congrArg Prod.snd (Option.some.inj h))
    exact lookup_flow f
  | findScheduler a =>
    obtain rfl := Option.some.inj (congrArg Prod.snd (Option.some.inj h))
    cases s.schedulers t <;> rfl
  | copyArgs _ _ | allocContext _ _ | procRegister _ _ | copyListId _ | copyContextId _
  | copyContext _ _ | copyEvent _ =>
    obtain rfl := Option.some.inj (congrArg Prod.snd (Option.some.inj h))
    split <;> rfl
  | putUnassigned e =>
    obtain ⟨a, -, rfl⟩ := Option.map_eq_some_iff.mp (congrArg Prod.snd (Option.some.inj h))
    cases e <;> rfl
  | idrLockAlloc _ | takeLock _ | destroyLock _ =>
    obtain rfl := spinLock_ops h
    rfl
  | idrLockRemove m a =>
    obtain rfl := spinLock_ops h
    cases m with
    | undo => rfl
    | release p => cases p <;> rfl
  | addLock k a c =>
    obtain rfl := spinLock_ops h
    cases k <;> rfl
  | eventLock k q =>
    obtain rfl := spinLock_ops h
    cases k <;> rfl
  | idrUnlockAlloc _ _ | takeUnlockWait _ | destroyUnlock _ =>
    obtain rfl := spinUnlock_ops h
    rfl
  | idrUnlockRemove m a =>
    obtain rfl := spinUnlock_ops h
    cases m with
    | undo => rfl
    | release p => cases p <;> rfl
  | addUnlock k a =>
    obtain rfl := spinUnlock_ops h
    cases k <;> rfl
  | eventUnlock k q =>
    obtain rfl := spinUnlock_ops h
    cases k <;> rfl
  | takeUnlock d cs =>
    obtain rfl := spinUnlock_ops h
    cases d <;> cases cs <;> rfl
  | umsComplistInit a i =>
    obtain ⟨o, ho⟩ := useComplist_ops h
    obtain rfl := Option.some.inj ho
    rfl
  | copyId a =>
    obtain ⟨o, ho⟩ := useComplist_ops h
    split at ho <;> obtain rfl := Option.some.inj ho <;> rfl
  | idrRemove m a =>
    obtain ⟨o, ho⟩ := useComplist_ops h
    obtain rfl := Option.some.inj ho
    cases m with
    | undo => rfl
    | release p => cases p <;> rfl
  | wakeUpAll p a =>
    obtain ⟨o, ho⟩ := useComplist_ops h
    obtain rfl := Option.some.inj ho
    cases p <;> rfl
  | getUmsComplist e a =>
    obtain ⟨o, ho⟩ := useComplist_ops h
    obtain rfl := Option.some.inj ho
    rfl
  | putUmsComplist p a =>
    obtain ⟨o, ho⟩ := useComplist_ops h
    split at ho <;> obtain rfl := Option.some.inj ho <;> cases p <;> rfl
  | addLink k a c =>
    obtain ⟨o, ho⟩ := useComplist_ops h
    obtain rfl := Option.some.inj ho
    cases k <;> rfl
  | addWake k a =>
    obtain ⟨o, ho⟩ := useComplist_ops h
    obtain rfl := Option.some.inj ho
    cases k <;> rfl
  | eventAdd k q =>
    obtain ⟨y, hy⟩ := useScheduler_ops h
    obtain rfl := Option.some.inj hy
    cases k <;> rfl
  | eventWake k q =>
    obtain ⟨y, hy⟩ := useScheduler_ops h
    obtain rfl := Option.some.inj hy
    cases k <;> rfl
  | allocStartup a q =>
    obtain ⟨y, hy⟩ := useScheduler_ops h
    obtain rfl := Option.some.inj hy
    rw [Op.during, Op.nestingDuring_allocStartup]
    cases luck.ok <;> rfl
  | symlinkFirst a q c cs =>
    obtain ⟨y, hy⟩ := useScheduler_ops h
    obtain rfl := Option.some.inj hy
    split <;> rfl
  | symlinkRest a q c cs =>
    cases cs with
    | nil =>
      obtain rfl := Option.some.inj (congrArg Prod.snd (Option.some.inj h))
      rfl
    | cons d ds =>
      obtain ⟨y, hy⟩ := useScheduler_ops h
      obtain rfl := Option.some.inj hy
      rfl
  | removeLink _ _ | switchTo _ _ | switchBack _ _ | wakeUpContext _ _ | dropEvents _ =>
    obtain ⟨y, hy⟩ := useScheduler_ops h
    obtain rfl := Option.some.inj hy
    rfl
  | takeFirst d =>
    cases d with
    | contexts a q =>
      obtain ⟨o, ho⟩ := useComplist_ops h
      split at ho
      · cases ho
      · obtain rfl := Option.some.inj ho
        rfl
    | events q =>
      obtain ⟨y, hy⟩ := useScheduler_ops h
      obtain rfl := Option.some.inj hy
      rfl
  | takeTest d =>
    simp only [exec] at h
    split at h
    · cases h
    · obtain rfl := Option.some.inj (congrArg Prod.snd (Option.some.inj h))
      split <;> rfl
  | takeWait d =>
    simp only [exec] at h
    split at h
    · cases h
    · obtain rfl := Option.some.inj (congrArg Prod.snd (Option.some.inj h))
      split <;> rfl
  | takeBlocked d =>
    simp only [exec] at h
    split at h
    · cases h
    split at h
    · obtain rfl := Option.some.inj (congrArg Prod.snd (Option.some.inj h))
      rfl
    split at h
    · cases h
    · obtain rfl := Option.some.inj (congrArg Prod.snd (Option.some.inj h))
      rfl
  | allocUmsComplist =>
    simp only [exec] at h
    split at h <;> obtain rfl := Option.some.inj (congrArg Prod.snd (Option.some.inj h)) <;> rfl
  | idrAlloc a =>
    simp only [exec] at h
    split at h
    · obtain rfl := Option.some.inj (congrArg Prod.snd (Option.some.inj h))
      rfl
    split at h
    · obtain rfl := Option.some.inj (congrArg Prod.snd (Option.some.inj h))
      rfl
    · cases h
  | insertContext r i =>
    simp only [exec] at h
    split at h
    · exact insertContext_flow r i (congrArg Prod.snd (Option.some.inj h))
    · obtain rfl := Option.some.inj (congrArg Prod.snd (Option.some.inj h))
      rfl
  | suspendWorker a =>
    simp only [exec] at h
    split at h
    · cases h
    · obtain rfl := Option.some.inj (congrArg Prod.snd (Option.some.inj h))
      rfl
  | allocYieldEvent =>
    simp only [exec] at h
    split at h
    · obtain rfl := Option.some.inj (congrArg Prod.snd (Option.some.inj h))
      rfl
    split at h
    · obtain rfl := Option.some.inj (congrArg Prod.snd (Option.some.inj h))
      rfl
    · cases h
  | allocEndEvent =>
    simp only [exec] at h
    split at h
    · obtain rfl := Option.some.inj (congrArg Prod.snd (Option.some.inj h))
      rfl
    split at h
    · obtain rfl := Option.some.inj (congrArg Prod.snd (Option.some.inj h))
      rfl
    · have hops := congrArg Prod.snd (Option.some.inj h)
      simp only at hops
      split at hops
      · obtain rfl := Option.some.inj hops
        rfl
      · cases hops
    · cases h

end Kernel

theorem Op.le_nestingDuring (luck : OpLuck) (op : Op) :
    op.nesting.1 + op.rcuStep ≤ (op.nestingDuring luck).1 ∧
      op.nesting.2 + op.spinStep = (op.nestingDuring luck).2 := by
  cases op with
  | allocStartup a q =>
    rw [nestingDuring_allocStartup]
    cases luck.ok with
    | false => exact ⟨Int.zero_le_ofNat 1, rfl⟩
    | true => exact ⟨Int.le_refl _, rfl⟩
  | _ => exact ⟨Int.le_refl _, rfl⟩

def Op.allocatesStartup : Op → Bool
  | .allocStartup _ _ => true
  | _ => false

/-- With a startup event, the level behind an operation is the level of the thread. -/
theorem Op.nestingDuring_eq (luck : OpLuck) (op : Op)
    (h : op.allocatesStartup = true → luck.ok = true) :
    op.nestingDuring luck = (op.nesting.1 + op.rcuStep, op.nesting.2 + op.spinStep) := by
  cases op with
  | allocStartup a q => exact if_pos (h rfl)
  | _ => rfl

/-- A thread whose levels are those of its code is on the levels of its code again after an
operation. -/
theorem Task.after_flow {x : Task} {s s' : Kernel} {t : Pid} {luck : OpLuck} {op : Op}
    {tail ops : List Op} {b : Bool}
    (hflow : flow Op.before Op.after ((x.rcu, x.spin), b) (op :: tail) = some ((0, 0), false))
    (hstartup : op.allocatesStartup = true → luck.ok = true)
    (hexec : s.exec t luck op = some (s', some ops)) :
    flow Op.before Op.after ((x.rcu + op.rcuStep, x.spin + op.spinStep), op.detachedDuring)
      (ops ++ tail) = some ((0, 0), false) := by
  obtain ⟨hbefore, htail⟩ := flow_cons.mp hflow
  obtain ⟨hnesting, -⟩ := Prod.mk.inj hbefore
  have hrcu : x.rcu = op.nesting.1 := congrArg Prod.fst hnesting
  have hspin : x.spin = op.nesting.2 := congrArg Prod.snd hnesting
  rw [hrcu, hspin, ← op.nestingDuring_eq luck hstartup]
  exact flow_append (Kernel.exec_flow op hexec) htail

theorem Request.code_flow (r : Request) :
    flow Op.before Op.after ((0, 0), false) r.code = some ((0, 0), false) := by
  cases r <;> rfl

/-- The code of a thread keeps to the levels, and the thread is in no more read sections than they
say. -/
def Task.Tracked (x : Task) : Prop :=
  (x.dead = true ∧ x.rest = []) ∨
    ∃ r b, x.rcu ≤ r ∧ flow Op.before Op.after ((r, x.spin), b) x.rest = some ((0, 0), false)

theorem Task.Tracked.call {x : Task} (h : x.Tracked) (hrest : x.rest = []) (hdead : x.dead = false)
    (r : Request) : Task.Tracked { x with rest := r.code } := by
  rcases h with ⟨hd, -⟩ | ⟨k, b, hk, hflow⟩
  · rw [hdead] at hd
    cases hd
  · rw [hrest] at hflow
    obtain ⟨hlevel, -⟩ := Prod.mk.inj (Option.some.inj hflow)
    obtain ⟨rfl, hspin⟩ := Prod.mk.inj hlevel
    refine Or.inr ⟨0, false, hk, ?_⟩
    simp only [hspin]
    exact r.code_flow

theorem Task.Tracked.after {x : Task} (h : x.Tracked) {s s' : Kernel} {t : Pid} {luck : OpLuck}
    {op : Op} {tail : List Op} {ops : Option (List Op)} (hrest : x.rest = op :: tail)
    (hexec : s.exec t luck op = some (s', ops)) : (x.after op tail ops).Tracked := by
  cases ops with
  | none => exact Or.inl ⟨rfl, rfl⟩
  | some xs =>
    rcases h with ⟨-, hnil⟩ | ⟨r, b, hr, hflow⟩
    · rw [hrest] at hnil
      cases hnil
    · rw [hrest] at hflow
      obtain ⟨hbefore, htail⟩ := flow_cons.mp hflow
      obtain ⟨hnesting, -⟩ := Prod.mk.inj hbefore
      obtain ⟨hle, hspin⟩ := op.le_nestingDuring luck
      rw [← hnesting] at hle hspin
      refine Or.inr ⟨(op.nestingDuring luck).1, op.detachedDuring, ?_, ?_⟩
      · change x.rcu + op.rcuStep ≤ _
        omega
      · change flow Op.before Op.after ((_, x.spin + op.spinStep), _) (xs ++ tail) = _
        rw [hspin]
        exact flow_append (Kernel.exec_flow op hexec) htail

namespace Kernel

variable {s s' : Kernel}

theorem tracked_step (hi : ∀ t, (s.task t).Tracked) (act : KernelAct)
    (h : s.step act = some s') (u : Pid) : (s'.task u).Tracked := by
  cases act with
  | call t r =>
    simp only [step] at h
    split at h
    · rename_i hidle
      obtain rfl := Option.some.inj h
      by_cases hut : u = t
      · subst hut
        simp only [Function.update_self]
        exact (hi u).call hidle.1 hidle.2 r
      · simp only [Function.update_of_ne hut]
        exact hi u
    · cases h
  | run t luck =>
    simp only [step] at h
    split at h
    · cases h
    · rename_i op tail hrest
      obtain ⟨⟨x, ops⟩, hexec, rfl⟩ := Option.map_eq_some_iff.mp h
      by_cases hut : u = t
      · subst hut
        simp only [Function.update_self]
        exact (hi u).after hrest hexec
      · simp only [Function.update_of_ne hut]
        exact hi u
  | free o =>
    simp only [step] at h
    split at h
    · cases o <;> obtain rfl := Option.some.inj h <;> exact hi u
    · cases h

/-- In no run does a thread come to an operation that may sleep inside a read section or under a
spinlock, other than at the known sites. -/
theorem sleeps_at_sites (s : Kernel) (hr : Reach step (fun _ _ => True) init s) (t : Pid) (op : Op)
    (tail : List Op) (hrest : (s.task t).rest = op :: tail) (hop : op.maySleep = true)
    (hatomic : 0 < (s.task t).rcu ∨ 0 < (s.task t).spin) : op.atomicSite = true := by
  have htracked : ∀ t, (s.task t).Tracked :=
    hr.invariant (fun s => ∀ t, (s.task t).Tracked) (fun _ => Or.inr ⟨0, false, Int.le_refl _, rfl⟩)
      (fun _ act _ hi _ h => tracked_step hi act h)
  by_contra hsite
  rw [Bool.not_eq_true] at hsite
  rcases htracked t with ⟨-, hnil⟩ | ⟨r, b, hle, hflow⟩
  · rw [hrest] at hnil
    cases hnil
  · rw [hrest] at hflow
    have hnesting := congrArg Prod.fst (flow_cons.mp hflow).1
    rw [Op.before, op.nesting_of_maySleep hop hsite] at hnesting
    obtain ⟨rfl, hspin⟩ := Prod.mk.inj hnesting
    omega

end Kernel

end LinuxUms
