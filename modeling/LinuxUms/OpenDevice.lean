import LinuxUms.BatchCalls
import LinuxUms.Effects
import LinuxUms.ProcLayout

/-! One open device with its procfs entries, from `ums_dev_open` to `ums_dev_release`. Every
allocation on the way may fail. -/
namespace LinuxUms

open KernelList ProcTree

/-- What goes well in a call: the registrations in procfs, the insertion into the table, the
allocation of the startup event, and the links made by a dequeue. -/
structure CallLuck where
  worker : WorkerRegister := {}
  scheduler : SchedulerRegister := {}
  insert : Bool := true
  startup : Bool := true
  first : Bool := true
  rest : List Bool := []

/-- `workers` and `schedulers` are the keys of the two tables. `owner w` is the scheduler that
has dequeued worker `w`, until somebody executes it. -/
structure OpenDevice where
  io : IoState
  workers : List Pid
  schedulers : List Pid
  proc : Procfs
  owner : Pid → Option Pid
  opened : Bool

/-- Who owns a worker after a call. -/
def nextOwner (s : IoState) (owner : Pid → Option Pid) : IoAct → Pid → Option Pid
  | .dqcontext t l true =>
    if (s.list l).isSome ∧ (s.scheduler t).isSome then
      fun w => if .context w ∈ (s.rings (.head l)).getD [] then some t else owner w
    else owner
  | .exec t w =>
    if (s.worker w).isSome ∧ (s.scheduler t).isSome then Function.update owner w none else owner
  | _ => owner

inductive DevAct where
  | openDev (pid : Pid) (dirs : DirsInit) (tables : Bool)
  | call (act : IoAct) (luck : CallLuck)
  | signal (t : Pid)
  -- `rhashtable_free_and_destroy` goes through each table in some order
  | release (workers schedulers : List Pid)

namespace OpenDevice

def init : OpenDevice where
  io := .init
  workers := []
  schedulers := []
  proc := .init
  owner _ := none
  opened := false

/-- `ums_dev_open`; `tables` says that both hash tables can be allocated. -/
def umsDevOpen (s : OpenDevice) (pid : Pid) (dirs : DirsInit) (tables : Bool) : OpenDevice :=
  match s.proc.umsProcDirsInit pid dirs with
  | (false, P) => { s with proc := P }
  | (true, P) =>
    if tables then { init with proc := P, opened := true }
    else { s with proc := P.umsProcDirsDestroy }

/-- A call that leaves procfs alone. -/
def ioctl (s : OpenDevice) (act : IoAct) : Option OpenDevice :=
  (s.io.step act).map fun io => { s with io := io, owner := nextOwner s.io s.owner act }

def enterUmsWorkerMode (s : OpenDevice) (t : Pid) (act : IoAct) (luck : CallLuck) :
    Option OpenDevice :=
  match s.proc.umsWorkerProcRegister t luck.worker with
  | (false, P) => some { s with proc := P }
  | (true, P) =>
    -- the worker is freed without `ums_worker_proc_unregister`
    if luck.insert = false then
      some { s with proc := { P with worker := Function.update P.worker t none } }
    else { s with proc := P, workers := t :: s.workers }.ioctl act

def enterUmsSchedulerMode (s : OpenDevice) (t : Pid) (act : IoAct) (luck : CallLuck) :
    Option OpenDevice :=
  match s.proc.umsSchedulerProcRegister t luck.scheduler with
  | (false, P) => some { s with proc := P }
  | (true, P) =>
    if luck.insert = false then
      some { s with proc := { P with scheduler := Function.update P.scheduler t none } }
    -- `ums_scheduler_destroy`
    else if luck.startup = false then some { s with proc := P.umsSchedulerProcUnregister t }
    else { s with proc := P, schedulers := t :: s.schedulers }.ioctl act

def umsComplistDqcontext (s : OpenDevice) (t : Pid) (l : ListId) (copied : Bool)
    (luck : CallLuck) : Option OpenDevice :=
  if (s.io.list l).isNone ∨ (s.io.scheduler t).isNone then s.ioctl (.dqcontext t l copied)
  else if listEmpty s.io.heap (.head l) then none
  else do
    let (first, h) ← doDequeueUmsComplistContext s.io.heap l
    let context ← first.worker
    let (linked, P) ← dqcontextLinks h s.proc t context luck.first luck.rest
    { s with proc := P }.ioctl (.dqcontext t l (linked && copied))

def execUmsContext (s : OpenDevice) (t w : Pid) : Option OpenDevice :=
  if (s.io.worker w).isSome ∧ (s.io.scheduler t).isSome then
    { s with proc := s.proc.umsSchedulerProcUnregisterWorker t w }.ioctl (.exec t w)
  else s.ioctl (.exec t w)

/-- `ums_worker_end`; the worker is destroyed if it is found and has a parent. -/
def umsWorkerEnd (s : OpenDevice) (t : Pid) : Option OpenDevice :=
  (s.ioctl (.exit t)).map fun s' =>
    if (s.io.worker t).isSome ∧ (s'.io.worker t).isNone then
      { s' with proc := s.proc.umsWorkerProcUnregister t, workers := s.workers.erase t }
    else s'

def umsDevIoctl (s : OpenDevice) (act : IoAct) (luck : CallLuck) : Option OpenDevice :=
  if s.io.asleep act.caller ≠ none then none
  else
    match act with
    | .enterWorker t l node zero => s.enterUmsWorkerMode t (.enterWorker t l node zero) luck
    | .enterScheduler t l => s.enterUmsSchedulerMode t (.enterScheduler t l) luck
    | .dqcontext t l copied => s.umsComplistDqcontext t l copied luck
    | .exec t w => s.execUmsContext t w
    | .exit t => s.umsWorkerEnd t
    | act => s.ioctl act

/-- `ums_dev_release`, which goes through the tables in the orders `ws` and `ss`. -/
def umsDevRelease (s : OpenDevice) (ws ss : List Pid) : OpenDevice :=
  { init with
    proc := (ss.foldl Procfs.umsSchedulerProcUnregister
      (ws.foldl Procfs.umsWorkerProcUnregister s.proc)).umsProcDirsDestroy }

def step (s : OpenDevice) : DevAct → Option OpenDevice
  | .openDev pid dirs tables => if s.opened then none else some (s.umsDevOpen pid dirs tables)
  | .call act luck => if s.opened then s.umsDevIoctl act luck else none
  | .signal t => some { s with io := s.io.signal t }
  | .release ws ss =>
    if s.opened ∧ ws.isPerm s.workers ∧ ss.isPerm s.schedulers then some (s.umsDevRelease ws ss)
    else none

/-- The states after a step, and what let it happen. -/
inductive Moves (s : OpenDevice) : DevAct → OpenDevice → Prop where
  | openDev (pid : Pid) (dirs : DirsInit) (tables : Bool) (hc : s.opened = false) :
      Moves s (.openDev pid dirs tables) (s.umsDevOpen pid dirs tables)
  | call (act : IoAct) (luck : CallLuck) (s' : OpenDevice) (ho : s.opened = true)
      (h : s.umsDevIoctl act luck = some s') : Moves s (.call act luck) s'
  | signal (t : Pid) : Moves s (.signal t) { s with io := s.io.signal t }
  | release (ws ss : List Pid) (ho : s.opened = true) (hws : ws.Perm s.workers)
      (hss : ss.Perm s.schedulers) : Moves s (.release ws ss) (s.umsDevRelease ws ss)

theorem moves_of_step {s s' : OpenDevice} {act : DevAct} (h : s.step act = some s') :
    s.Moves act s' := by
  cases act with
  | openDev pid dirs tables =>
    rw [step] at h
    split at h <;> cases h
    rename_i hc
    exact .openDev pid dirs tables (Bool.eq_false_iff.mpr hc)
  | call act luck =>
    rw [step] at h
    split at h
    · rename_i ho
      exact .call act luck s' ho h
    · cases h
  | signal t =>
    cases h
    exact .signal t
  | release ws ss =>
    rw [step] at h
    split at h <;> cases h
    rename_i hr
    exact .release ws ss hr.1 (List.isPerm_iff.mp hr.2.1) (List.isPerm_iff.mp hr.2.2)

end OpenDevice

/-- A worker that somebody owns is idle and in no completion list. -/
def Owned (s : IoState) (owner : Pid → Option Pid) : Prop :=
  ∀ w p, owner w = some p → ∃ x, s.worker w = some x ∧ x.context.state = .idle ∧
    ∀ l q, s.rings (.head l) = some q → .context w ∉ q

namespace Owned

variable {s : IoState} {owner : Pid → Option Pid}

/-- Owned workers stay what they are, and nobody puts them into a list. -/
theorem frame (ho : Owned s owner) (s' : IoState)
    (hw : ∀ w, owner w ≠ none → s'.worker w = s.worker w)
    (hr : ∀ l q w, owner w ≠ none → s'.rings (.head l) = some q → .context w ∈ q →
      ∃ l q, s.rings (.head l) = some q ∧ .context w ∈ q) : Owned s' owner := by
  intro w p hp
  have hne : owner w ≠ none := by simp [hp]
  obtain ⟨x, hx, hi, hq⟩ := ho w p hp
  refine ⟨x, (hw w hne).trans hx, hi, fun l q hl hm => ?_⟩
  obtain ⟨l', q', hl', hm'⟩ := hr l q w hne hl hm
  exact hq l' q' hl' hm'

/-- A worker that is running, or no worker at all, is not owned. -/
theorem none_of_not_idle (ho : Owned s owner) (t : Pid)
    (ht : ∀ x, s.worker t = some x → x.context.state ≠ .idle) : owner t = none := by
  cases hp : owner t with
  | none => rfl
  | some p =>
    obtain ⟨x, hx, hi, -⟩ := ho t p hp
    exact absurd hi (ht x hx)

/-- A worker that nobody owns goes to the tail of a list. -/
theorem queued (ho : Owned s owner) (s' : IoState) (t : Pid) (ht : owner t = none) (l : ListId)
    (q : List Node) (hq : s.rings (.head l) = some q)
    (hw : ∀ w, w ≠ t → s'.worker w = s.worker w)
    (hr : s'.rings = Function.update (Function.update s.rings (.context t) none) (.head l)
      (some (q ++ [.context t]))) : Owned s' owner := by
  have hne (w : Pid) (ho : owner w ≠ none) : w ≠ t := by
    rintro rfl
    exact ho ht
  refine ho.frame s' (fun w hw' => hw w (hne w hw')) (fun m k w hw' hk hm => ?_)
  rw [hr] at hk
  rcases update_none_some_cases hk with ⟨-, rfl⟩ | ⟨-, -, hk⟩
  · refine ⟨l, q, hq, ?_⟩
    simpa [hne w hw'] using hm
  · exact ⟨m, k, hk, hm⟩

theorem step (ho : Owned s owner) (hi : s.Inv) (act : IoAct) (hok : Guarded s act) (s' : IoState)
    (h : s.step act = some s') : Owned s' (nextOwner s owner act) := by
  obtain ⟨-, heff⟩ := hi.effect act hok s' h
  cases heff with
  | created t l hl =>
    refine ho.frame _ (fun _ _ => rfl) (fun m q w _ hq hm => ?_)
    rcases update_some_cases hq with ⟨-, rfl⟩ | ⟨-, hq⟩
    · cases hm
    · exact ⟨m, q, hq, hm⟩
  | deleteUnknown t l hl => exact ho
  | deleted t l o hl hd =>
    exact ho.frame _ (fun _ _ => by simp) (fun m q w _ hq hm =>
      ⟨m, q, IoState.of_putUmsComplist_rings _ _ _ hq, hm⟩)
  | reenteredWorker t l node zero hw => exact ho
  | enteredWorker t l node zero o q heap hw hl hq =>
    have ht := ho.none_of_not_idle t (by simp [hw])
    exact ho.queued _ t ht l q hq (fun w hwt => Function.update_of_ne hwt _ _) rfl
  | reenteredScheduler t l hs => exact ho
  | enteredScheduler t l o hs hl => exact ho
  | dequeueRefused t l copied hno =>
    have hrefused : ¬ ((s.list l).isSome = true ∧ (s.scheduler t).isSome = true) := by
      rcases hno with h | h <;> simp [h]
    cases copied with
    | true => simpa only [nextOwner, hrefused, if_false] using ho
    | false => exact ho
  | dequeued t l c m heap hl hs hq ht =>
    have hsome : (s.list l).isSome = true ∧ (s.scheduler t).isSome = true := by
      simpa [Option.isSome_iff_ne_none] using ⟨hl, hs⟩
    -- the list is empty after the dequeue, and the other heads are as before
    have hrings (l' : ListId) (q : List Node)
        (hq' : (s.taken (.head l) c m heap).rings (.head l') = some q) :
        q = [] ∨ (l' ≠ l ∧ s.rings (.head l') = some q) := by
      simp only [IoState.taken] at hq'
      rcases update_some_some_cases hq' with ⟨hh, -⟩ | ⟨-, rfl⟩ | ⟨-, hne, hq'⟩
      · cases hh
      · exact Or.inl rfl
      · exact Or.inr ⟨by simpa using hne, hq'⟩
    simp only [nextOwner, hsome, and_self, if_true, hq, Option.getD_some]
    intro w p hp
    by_cases hm : .context w ∈ Node.context c :: m
    · -- a member of the batch: it is idle, and it was on this list alone
      obtain ⟨w', x, he, hx, -, hidle⟩ := hi.rings.queue l _ hq _ hm
      rw [Node.context.injEq] at he
      subst he
      refine ⟨x, hx, hidle, fun l' q hq' hm' => ?_⟩
      rcases hrings l' q hq' with rfl | ⟨hne, hq'⟩
      · cases hm'
      · exact hne (Node.head.inj (hi.rings.family.disjoint _ _ _ _ _ hq' hq
          (List.mem_cons_of_mem _ hm') (List.mem_cons_of_mem _ hm)))
    · simp only [if_neg hm] at hp
      obtain ⟨x, hx, hidle, hout⟩ := ho w p hp
      refine ⟨x, hx, hidle, fun l' q hq' hm' => ?_⟩
      rcases hrings l' q hq' with rfl | ⟨-, hq'⟩
      · cases hm'
      · exact hout l' q hq' hm'
  | putBack t l c m heap hl hs hq =>
    refine ho.frame _ (fun _ _ => rfl) (fun l' q w _ hq' hm => ?_)
    rcases update_none_some_cases hq' with ⟨-, rfl⟩ | ⟨-, -, hq'⟩
    · -- what is queued again was the first of the same list
      exact ⟨l, _, hq, by simpa using Or.inl (by simpa using hm)⟩
    · exact ⟨l', q, hq', hm⟩
  | nextUnknown t c hw => exact ho
  | nextEnd t c hw he => exact ho
  | nextTaken t c d m heap hw hk ht =>
    refine ho.frame _ (fun _ _ => rfl) (fun l q w _ hq hm => ⟨l, q, ?_, hm⟩)
    simpa [IoState.taken] using hq
  | execRefused t w hno =>
    have hrefused : ¬ ((s.worker w).isSome = true ∧ (s.scheduler t).isSome = true) := by
      rcases hno with h | h <;> simp [h]
    simpa only [nextOwner, hrefused, if_false] using ho
  | executed t w x y hx hidle hr hy =>
    simp only [nextOwner, hx, hy, Option.isSome_some, and_self, if_true]
    intro u p hu
    -- the executed worker is nobody's any more
    obtain ⟨huw, hu⟩ := of_update_none hu
    obtain ⟨x', hx', hrest⟩ := ho u p hu
    exact ⟨x', (Function.update_of_ne huw _ _).trans hx', hrest⟩
  | yieldRefused t args hw => exact ho
  | yielded t args p n l y o q heap hw hp hy hl hq hr =>
    have ht := ho.none_of_not_idle t (by simp [hw])
    exact ho.queued _ t ht l q hq (fun w hwt => Function.update_of_ne hwt _ _) rfl
  | exitRefused t hw => exact ho
  | exited t p n l y o hw hp hy hl hr =>
    have ht := ho.none_of_not_idle t (by simp [hw])
    refine ho.frame _ (fun w hw' => ?_) (fun m q w _ hq hm => ?_)
    · have hwt : w ≠ t := by
        rintro rfl
        exact hw' ht
      simp [Function.update_of_ne hwt]
    · have hq' := IoState.of_putUmsComplist_rings _ _ _ hq
      exact ⟨m, q, hq', hm⟩
  | noEvents t copied hs => exact ho
  | event t copied x l e q hs => exact ho

end Owned

/-- The documented protocol: guarded calls, a scheduler executes what it has dequeued, and no signal
reaches a thread that its call has suspended. -/
def Documented (s : OpenDevice) : DevAct → Prop
  | .call (.exec t w) _ => Guarded s.io (.exec t w) ∧
    ((s.io.worker w).isSome → (s.io.scheduler t).isSome → s.owner w = some t)
  | .call act _ => Guarded s.io act
  | .signal t => s.io.asleep t = none
  | _ => True

instance (s : OpenDevice) : DecidablePred (Documented s)
  | .call (.exec t w) _ => inferInstanceAs (Decidable (Guarded s.io (.exec t w) ∧ _))
  | .call (.create t l) _ => inferInstanceAs (Decidable (Guarded s.io (.create t l)))
  | .call (.delete t l) _ => inferInstanceAs (Decidable (Guarded s.io (.delete t l)))
  | .call (.enterWorker t l node zero) _ =>
    inferInstanceAs (Decidable (Guarded s.io (.enterWorker t l node zero)))
  | .call (.enterScheduler t l) _ =>
    inferInstanceAs (Decidable (Guarded s.io (.enterScheduler t l)))
  | .call (.dqcontext t l copied) _ =>
    inferInstanceAs (Decidable (Guarded s.io (.dqcontext t l copied)))
  | .call (.nextContext t c) _ => inferInstanceAs (Decidable (Guarded s.io (.nextContext t c)))
  | .call (.yield t args) _ => inferInstanceAs (Decidable (Guarded s.io (.yield t args)))
  | .call (.exit t) _ => inferInstanceAs (Decidable (Guarded s.io (.exit t)))
  | .call (.dqevent t copied) _ => inferInstanceAs (Decidable (Guarded s.io (.dqevent t copied)))
  | .signal t => inferInstanceAs (Decidable (s.io.asleep t = none))
  | .openDev _ _ _ | .release _ _ => inferInstanceAs (Decidable True)

theorem Documented.guarded {s : OpenDevice} {act : IoAct} {luck : CallLuck}
    (h : Documented s (.call act luck)) : Guarded s.io act := by
  cases act <;> first | exact h.1 | exact h

namespace OpenDevice

structure OpenInv (s : OpenDevice) : Prop where
  io : s.io.Inv
  layout : Layout s.proc s.owner
  owned : Owned s.io s.owner
  worker : ∀ t, s.proc.worker t = none ↔ s.io.worker t = none
  scheduler : ∀ t, s.proc.scheduler t = none ↔ s.io.scheduler t = none
  workers : ∀ t, t ∈ s.workers ↔ s.io.worker t ≠ none
  schedulers : ∀ t, t ∈ s.schedulers ↔ s.io.scheduler t ≠ none
  nodup : s.workers.Nodup

variable {s s' : OpenDevice} {t : Pid}

/-- A call that registers nobody and ends nobody. -/
theorem OpenInv.ioctl (hi : s.OpenInv) (act : IoAct) (hok : Guarded s.io act) (P : Procfs)
    (h : { s with proc := P }.ioctl act = some s')
    (hlay : Layout P (nextOwner s.io s.owner act)) (htab : SameTables s.proc P)
    (henter : ∀ w l node zero, act ≠ .enterWorker w l node zero) (hexit : ∀ w, act ≠ .exit w)
    (hsched : ∀ p l, act ≠ .enterScheduler p l) :
    s'.OpenInv ∧ s'.proc.bad = s.proc.bad ∧ s'.opened = s.opened := by
  obtain ⟨io, hio, rfl⟩ := Option.map_eq_some_iff.mp h
  have hw (w : Pid) := hi.io.worker_none_iff act hok io hio w (henter w) (hexit w)
  have hs (p : Pid) := hi.io.scheduler_none_iff act hok io hio p (hsched p)
  refine ⟨⟨hi.io.step act hok io hio, hlay, hi.owned.step hi.io act hok io hio, ?_, ?_, ?_, ?_,
    hi.nodup⟩, htab.bad, rfl⟩
  · exact fun w => (htab.worker w).trans ((hi.worker w).trans (hw w).symm)
  · exact fun p => (htab.scheduler p).trans ((hi.scheduler p).trans (hs p).symm)
  · exact fun w => (hi.workers w).trans (not_congr (hw w)).symm
  · exact fun p => (hi.schedulers p).trans (not_congr (hs p)).symm

/-- A call that leaves procfs and the owners alone. -/
theorem OpenInv.plain (hi : s.OpenInv) (act : IoAct) (hok : Guarded s.io act)
    (h : s.ioctl act = some s') (hown : nextOwner s.io s.owner act = s.owner)
    (henter : ∀ w l node zero, act ≠ .enterWorker w l node zero) (hexit : ∀ w, act ≠ .exit w)
    (hsched : ∀ p l, act ≠ .enterScheduler p l) :
    s'.OpenInv ∧ s'.proc.bad = s.proc.bad ∧ s'.opened = s.opened :=
  hi.ioctl act hok s.proc h (by rw [hown]; exact hi.layout) (.refl _) henter hexit hsched

/-- Only serial numbers are used up. -/
theorem OpenInv.skip (hi : s.OpenInv) (n : ℕ) (hn : s.proc.tree.next ≤ n) :
    OpenInv { s with proc := s.proc.skip n } :=
  ⟨hi.io, hi.layout.skip n hn, hi.owned, hi.worker, hi.scheduler, hi.workers, hi.schedulers,
    hi.nodup⟩

theorem OpenInv.enterWorker (hi : s.OpenInv) (l : ListId) (node : Links Node) (zero : Bool)
    (hl : s.io.list l ≠ none) (luck : CallLuck)
    (h : s.enterUmsWorkerMode t (.enterWorker t l node zero) luck = some s') :
    s'.OpenInv ∧ s'.proc.bad = s.proc.bad ∧ s'.opened = s.opened := by
  unfold enterUmsWorkerMode at h
  rcases hi.layout.registerWorker t luck.worker with
    ⟨n, hn, hreg⟩ | ⟨n, d, hnone, hreg, hlay, hlay'⟩
  · rw [hreg] at h
    obtain rfl := Option.some.inj h
    exact ⟨hi.skip n hn, rfl, rfl⟩
  · rw [hreg] at h
    simp only at h
    split at h
    · obtain rfl := Option.some.inj h
      -- the new directories stay behind
      have hsame : Function.update (Function.update s.proc.worker t (some d)) t none =
          s.proc.worker := by
        rw [Function.update_idem, ← hnone, Function.update_eq_self]
      simp only [hsame]
      exact ⟨⟨hi.io, hlay, hi.owned, hi.worker, hi.scheduler, hi.workers, hi.schedulers,
        hi.nodup⟩, trivial, trivial⟩
    · obtain ⟨io, hio, rfl⟩ := Option.map_eq_some_iff.mp h
      have hok : Guarded s.io (.enterWorker t l node zero) := hl
      have hw := (hi.worker t).mp hnone
      have hi' := hi.io.step _ hok io hio
      have hw' (w : Pid) (hwt : w ≠ t) := hi.io.worker_none_iff _ hok io hio w
        (fun _ _ _ he => hwt (by simp only [IoAct.enterWorker.injEq] at he; exact he.1.symm))
        (by simp)
      have hs' (p : Pid) := hi.io.scheduler_none_iff _ hok io hio p (by simp)
      have hnew : io.worker t ≠ none := by
        obtain ⟨-, heff⟩ := hi.io.effect _ hok io hio
        cases heff with
        | reenteredWorker _ _ _ _ hne => exact absurd hw hne
        | enteredWorker _ _ _ _ o q heap _ _ _ => simp [IoState.queued]
      refine ⟨⟨hi', hlay', hi.owned.step hi.io _ hok io hio, fun w => ?_, fun p => ?_, fun w => ?_,
        fun p => ?_, ?_⟩, rfl, rfl⟩
      · by_cases hwt : w = t
        · simp [hwt, hnew]
        · exact (by simp [Function.update_of_ne hwt] : _ ↔ s.proc.worker w = none).trans
            ((hi.worker w).trans (hw' w hwt).symm)
      · exact (hi.scheduler p).trans (hs' p).symm
      · by_cases hwt : w = t
        · simp [hwt, hnew]
        · simp only [List.mem_cons, hwt, false_or]
          exact (hi.workers w).trans (not_congr (hw' w hwt)).symm
      · exact (hi.schedulers p).trans (not_congr (hs' p)).symm
      · exact List.nodup_cons.mpr ⟨fun hm => (hi.workers t).mp hm hw, hi.nodup⟩

theorem OpenInv.enterScheduler (hi : s.OpenInv) (l : ListId) (hl : s.io.list l ≠ none)
    (luck : CallLuck) (h : s.enterUmsSchedulerMode t (.enterScheduler t l) luck = some s') :
    s'.OpenInv ∧ s'.proc.bad = s.proc.bad ∧ s'.opened = s.opened := by
  unfold enterUmsSchedulerMode at h
  rcases hi.layout.registerScheduler t luck.scheduler with
    ⟨n, hn, hreg⟩ | ⟨n, d, hnone, -, -, hreg, hlay, hlay'⟩
  · rw [hreg] at h
    obtain rfl := Option.some.inj h
    exact ⟨hi.skip n hn, rfl, rfl⟩
  · rw [hreg] at h
    have hsame : Function.update (Function.update s.proc.scheduler t (some d)) t none =
        s.proc.scheduler := by
      rw [Function.update_idem, ← hnone, Function.update_eq_self]
    simp only at h
    split at h
    · -- the insertion failed: the directories stay, and no record points to them
      obtain rfl := Option.some.inj h
      simp only [hsame]
      exact ⟨⟨hi.io, hlay, hi.owned, hi.worker, hi.scheduler, hi.workers, hi.schedulers,
        hi.nodup⟩, trivial, trivial⟩
    split at h
    · obtain rfl := Option.some.inj h
      -- the startup event failed: a scheduler this new owns nobody, so its directories go at once
      have hnobody (w : Pid) : s.owner w ≠ some t := by
        intro ho
        obtain ⟨-, d', -, hd', -⟩ := hi.layout.link w t ho
        rw [hnone] at hd'
        cases hd'
      have hgone := hlay'.unregisterScheduler t hnobody
      have heq := Procfs.umsSchedulerProcUnregister_eq d (Function.update_self _ _ _)
        (hlay'.scheduler t d (Function.update_self _ _ _))
      rw [heq] at hgone ⊢
      simp only [Procfs.without, hsame] at hgone ⊢
      exact ⟨⟨hi.io, hgone, hi.owned, hi.worker, hi.scheduler, hi.workers, hi.schedulers,
        hi.nodup⟩, trivial, trivial⟩
    · obtain ⟨io, hio, rfl⟩ := Option.map_eq_some_iff.mp h
      have hok : Guarded s.io (.enterScheduler t l) := hl
      have hs := (hi.scheduler t).mp hnone
      have hw' (w : Pid) := hi.io.worker_none_iff _ hok io hio w (by simp) (by simp)
      have hs' (p : Pid) (hpt : p ≠ t) := hi.io.scheduler_none_iff _ hok io hio p
        (fun _ he => hpt (by simp only [IoAct.enterScheduler.injEq] at he; exact he.1.symm))
      have hnew : io.scheduler t ≠ none := by
        obtain ⟨-, heff⟩ := hi.io.effect _ hok io hio
        cases heff with
        | reenteredScheduler _ _ hne => exact absurd hs hne
        | enteredScheduler _ _ o _ _ => simp
      refine ⟨⟨hi.io.step _ hok io hio, hlay', hi.owned.step hi.io _ hok io hio, fun w => ?_,
        fun p => ?_, fun w => ?_, fun p => ?_, hi.nodup⟩, rfl, rfl⟩
      · exact (hi.worker w).trans (hw' w).symm
      · by_cases hpt : p = t
        · simp [hpt, hnew]
        · exact (by simp [Function.update_of_ne hpt] : _ ↔ s.proc.scheduler p = none).trans
            ((hi.scheduler p).trans (hs' p hpt).symm)
      · exact (hi.workers w).trans (not_congr (hw' w)).symm
      · by_cases hpt : p = t
        · simp [hpt, hnew]
        · simp only [List.mem_cons, hpt, false_or]
          exact (hi.schedulers p).trans (not_congr (hs' p hpt)).symm

/-- A worker that is queued has no owner yet. -/
theorem OpenInv.queued_none (hi : s.OpenInv) (l : ListId) (q : List Node)
    (hq : s.io.rings (.head l) = some q) (w : Pid) (hw : .context w ∈ q) : s.owner w = none := by
  cases ho : s.owner w with
  | none => rfl
  | some p =>
    obtain ⟨x, -, -, hout⟩ := hi.owned w p ho
    exact absurd hw (hout l q hq)

/-- A dequeue makes links for members of the batch, and calls the device. -/
theorem OpenInv.dequeue_cases (hi : s.OpenInv) (l : ListId) (copied : Bool) (luck : CallLuck)
    (h : s.umsComplistDqcontext t l copied luck = some s') :
    ((s.io.list l = none ∨ s.io.scheduler t = none) ∧
      s.ioctl (.dqcontext t l copied) = some s') ∨
    ∃ c ds linked cs, s.io.list l ≠ none ∧ s.io.scheduler t ≠ none ∧
      s.io.rings (.head l) = some ((c :: ds).map .context) ∧
      (s.proc.umsSchedulerProcRegisterWorker t c luck.first).1 = linked ∧
      (linked = true ∧ luck.rest.length = ds.length ∧ cs = (c, luck.first) :: ds.zip luck.rest ∨
        linked = false ∧ cs = [(c, luck.first)]) ∧
      { s with proc := s.proc.registerWorkers t cs }.ioctl (.dqcontext t l (linked && copied)) =
        some s' := by
  unfold umsComplistDqcontext at h
  split at h
  · rename_i hno
    exact Or.inl ⟨by simpa using hno, h⟩
  · rename_i hsome
    obtain ⟨hl, hs⟩ : s.io.list l ≠ none ∧ s.io.scheduler t ≠ none := by simpa using hsome
    split at h
    · cases h
    · rename_i hne
      obtain ⟨q, hq⟩ := hi.io.head_some hl
      obtain ⟨ms, rfl, -⟩ := hi.io.rings.pids l q hq
      obtain ⟨c, w, m, heap, he, -, -, htake⟩ := hi.io.first _ _ hq (Bool.not_eq_true _ ▸ hne)
      obtain ⟨c', ds, rfl⟩ : ∃ c' ds, ms = c' :: ds := by
        cases ms with
        | nil => cases he
        | cons c' ds => exact ⟨c', ds, rfl⟩
      simp only [List.map_cons, List.cons.injEq, Node.context.injEq] at he
      obtain ⟨rfl, rfl⟩ := he
      -- the links are made on a walk over the ring behind the context that was taken
      have hr := hi.io.rings.take (.head l) c' _ hq heap htake
      have hlinks := dqcontextLinks_ring hr.family s.proc t c' ds (Function.update_self _ _ _)
        luck.first luck.rest
      have hop : doDequeueUmsComplistContext s.io.heap l = some (.context c', heap) := htake
      simp only [hop, Node.worker, Option.bind_eq_bind, Option.bind_some, hlinks] at h
      refine Or.inr ⟨c', ds, (s.proc.umsSchedulerProcRegisterWorker t c' luck.first).1, ?_⟩
      split at h
      · rename_i hlinked
        split at h
        · rename_i hlen
          exact ⟨_, hl, hs, hq, rfl, Or.inl ⟨hlinked, hlen, rfl⟩, by simpa [hlinked] using h⟩
        · cases h
      · rename_i hlinked
        have hlinked := Bool.not_eq_true _ ▸ hlinked
        exact ⟨_, hl, hs, hq, rfl, Or.inr ⟨hlinked, rfl⟩, by simpa [hlinked] using h⟩

/-- The owners after a dequeue that succeeds, or does not. -/
theorem nextOwner_dqcontext (l : ListId) (q : List Node) (hl : s.io.list l ≠ none)
    (hs : s.io.scheduler t ≠ none) (hq : s.io.rings (.head l) = some q) (w : Pid) :
    nextOwner s.io s.owner (.dqcontext t l true) w =
      if .context w ∈ q then some t else s.owner w := by
  have hsome : (s.io.list l).isSome = true ∧ (s.io.scheduler t).isSome = true := by
    simpa [Option.isSome_iff_ne_none] using ⟨hl, hs⟩
  simp only [nextOwner, hsome, and_self, if_true, hq, Option.getD_some]

theorem OpenInv.dqcontext (hi : s.OpenInv) (l : ListId) (copied : Bool) (luck : CallLuck)
    (h : s.umsComplistDqcontext t l copied luck = some s') :
    s'.OpenInv ∧ s'.proc.bad = s.proc.bad ∧ s'.opened = s.opened := by
  rcases hi.dequeue_cases l copied luck h with
    ⟨hno, h⟩ | ⟨c, ds, linked, cs, hl, hs, hq, -, hcs, h⟩
  · have hsame : nextOwner s.io s.owner (.dqcontext t l copied) = s.owner := by
      have hrefused : ¬ ((s.io.list l).isSome = true ∧ (s.io.scheduler t).isSome = true) := by
        rcases hno with h | h <;> simp [h]
      cases copied with
      | true => simp only [nextOwner, hrefused, if_false]
      | false => rfl
    exact hi.plain (.dqcontext t l copied) trivial h hsame (by simp) (by simp) (by simp)
  · have hmem (x : Pid × Bool) (hx : x ∈ cs) : x.1 ∈ c :: ds := by
      rcases hcs with ⟨-, -, rfl⟩ | ⟨-, rfl⟩
      · rcases List.mem_cons.mp hx with rfl | hx
        · exact List.mem_cons_self
        · exact List.mem_cons_of_mem _ (List.of_mem_zip hx).1
      · obtain rfl := List.mem_singleton.mp hx
        exact List.mem_cons_self
    -- links are made for members of the queue, which are workers with directories
    have hworker (x : Pid × Bool) (hx : x ∈ cs) : s.proc.worker x.1 ≠ none := by
      obtain ⟨w, v, he, hv, -⟩ := hi.io.rings.queue l _ hq (.context x.1)
        (List.mem_map_of_mem (hmem x hx))
      rw [Node.context.injEq] at he
      rw [ne_eq, hi.worker, he, hv]
      simp
    -- an owner changes only if the links and the copy succeed, and then every member has a link
    have hother (u : Pid) (hu : ∀ x ∈ cs, x.1 ≠ u) :
        nextOwner s.io s.owner (.dqcontext t l (linked && copied)) u = s.owner u := by
      cases hdone : (linked && copied) with
      | false => rfl
      | true =>
        rw [nextOwner_dqcontext l _ hl hs hq, if_neg]
        rcases hcs with ⟨-, hlen, rfl⟩ | ⟨rfl, -⟩
        · intro hm
          obtain ⟨v, hv, he⟩ := List.mem_map.mp hm
          rw [Node.context.injEq] at he
          subst he
          rcases List.mem_cons.mp hv with rfl | hv
          · exact hu _ List.mem_cons_self rfl
          · have hfst : (ds.zip luck.rest).map Prod.fst = ds := List.map_fst_zip hlen.ge
            rw [← hfst] at hv
            obtain ⟨x, hx, rfl⟩ := List.mem_map.mp hv
            exact hu x (List.mem_cons_of_mem _ hx) rfl
        · simp at hdone
    have hthis (x : Pid × Bool) (hx : x ∈ cs) (q : Pid)
        (ho : nextOwner s.io s.owner (.dqcontext t l (linked && copied)) x.1 = some q) :
        q = t := by
      have hm : Node.context x.1 ∈ (c :: ds).map .context := List.mem_map_of_mem (hmem x hx)
      cases hdone : (linked && copied) with
      | false =>
        rw [hdone] at ho
        simp only [nextOwner, hi.queued_none l _ hq x.1 hm] at ho
        cases ho
      | true =>
        rw [hdone, nextOwner_dqcontext l _ hl hs hq, if_pos hm, Option.some.injEq] at ho
        exact ho.symm
    obtain ⟨hlay, htab⟩ := hi.layout.registerWorkers _ t (fun he => hs ((hi.scheduler t).mp he)) cs
      hworker hother hthis
    exact hi.ioctl (.dqcontext t l (linked && copied)) trivial _ h hlay htab (by simp) (by simp)
      (by simp)

theorem OpenInv.exec (hi : s.OpenInv) (w : Pid) (luck : CallLuck)
    (hok : Documented s (.call (.exec t w) luck)) (h : s.execUmsContext t w = some s') :
    s'.OpenInv ∧ s'.proc.bad = s.proc.bad ∧ s'.opened = s.opened := by
  unfold execUmsContext at h
  split at h
  · rename_i hsome
    have ho := hok.2 hsome.1 hsome.2
    obtain ⟨x, d, T, hx, hd, -, heq, hlay⟩ := hi.layout.unregisterLink t w ho
    have hnext : nextOwner s.io s.owner (.exec t w) = Function.update s.owner w none := by
      simp only [nextOwner, hsome, and_self, if_true]
    refine hi.ioctl _ hok.1 _ h (by rw [hnext]; exact hlay) ?_ (by simp) (by simp) (by simp)
    rw [heq]
    exact ⟨rfl, update_none_iff _ t d _ hd, fun _ => Iff.rfl⟩
  · rename_i hno
    have hnext : nextOwner s.io s.owner (.exec t w) = s.owner := by
      simp only [nextOwner, hno, if_false]
    exact hi.plain _ hok.1 h hnext (by simp) (by simp) (by simp)

theorem OpenInv.exit (hi : s.OpenInv) (h : s.umsWorkerEnd t = some s') :
    s'.OpenInv ∧ s'.proc.bad = s.proc.bad ∧ s'.opened = s.opened := by
  obtain ⟨s₁, h₁, rfl⟩ := Option.map_eq_some_iff.mp h
  obtain ⟨io, hio, rfl⟩ := Option.map_eq_some_iff.mp h₁
  have hok : Guarded s.io (.exit t) := trivial
  have hcases : (s.io.worker t = none ∧ io = s.io) ∨
      ∃ w, s.io.worker t = some w ∧ w.context.state = .running ∧ io.worker t = none := by
    obtain ⟨-, heff⟩ := hi.io.effect _ hok io hio
    cases heff with
    | exitRefused _ hw => exact Or.inl ⟨hw, rfl⟩
    | exited _ p n l y o hw hp hy hl hr => exact Or.inr ⟨_, hw, rfl, by simp⟩
  rcases hcases with ⟨hw, rfl⟩ | ⟨w, hw, hrun, hgone⟩
  · simp only [hw, Option.isSome_none, Bool.false_eq_true, false_and, if_false]
    exact ⟨⟨hi.io, hi.layout, hi.owned, hi.worker, hi.scheduler, hi.workers, hi.schedulers,
      hi.nodup⟩, trivial, trivial⟩
  · have hw' (u : Pid) (hut : u ≠ t) := hi.io.worker_none_iff _ hok _ hio u (by simp)
      (fun he => hut (IoAct.exit.inj he).symm)
    have hs' (p : Pid) := hi.io.scheduler_none_iff _ hok _ hio p (by simp)
    -- a running worker is nobody's, so no link points to its directory
    have hnone : s.owner t = none := hi.owned.none_of_not_idle t (fun x hx => by
      obtain rfl := Option.some.inj (hw.symm.trans hx)
      simp [hrun])
    obtain ⟨d, hd⟩ := Option.ne_none_iff_exists'.mp
      (mt (hi.worker t).mp (by simp [hw]) : s.proc.worker t ≠ none)
    have heq := Procfs.umsWorkerProcUnregister_eq d hd (hi.layout.worker t d hd)
    have hlay := hi.layout.unregisterWorker t hnone
    simp only [hw, hgone, Option.isSome_some, Option.isNone_none, and_self, if_true]
    refine ⟨⟨hi.io.step _ hok io hio, hlay, hi.owned.step hi.io _ hok io hio, fun u => ?_,
      fun p => ?_, fun u => ?_, fun p => ?_, hi.nodup.erase t⟩, by rw [heq]; rfl, trivial⟩
    · rw [heq]
      by_cases hut : u = t
      · simp [hut, hgone]
      · exact (by simp [Function.update_of_ne hut] : _ ↔ s.proc.worker u = none).trans
          ((hi.worker u).trans (hw' u hut).symm)
    · rw [heq]
      exact (hi.scheduler p).trans (hs' p).symm
    · rw [hi.nodup.mem_erase_iff]
      by_cases hut : u = t
      · simp [hut, hgone]
      · simp only [hut, ne_eq, not_false_eq_true, true_and]
        exact (hi.workers u).trans (not_congr (hw' u hut)).symm
    · exact (hi.schedulers p).trans (not_congr (hs' p)).symm

theorem OpenInv.call (hi : s.OpenInv) (act : IoAct) (luck : CallLuck)
    (hok : Documented s (.call act luck)) (h : s.umsDevIoctl act luck = some s') :
    s'.OpenInv ∧ s'.proc.bad = s.proc.bad ∧ s'.opened = s.opened := by
  unfold umsDevIoctl at h
  split at h
  · cases h
  · cases act with
    | enterWorker t l node zero => exact hi.enterWorker l node zero hok luck h
    | enterScheduler t l => exact hi.enterScheduler l hok luck h
    | dqcontext t l copied => exact hi.dqcontext l copied luck h
    | exec t w => exact hi.exec w luck hok h
    | exit t => exact hi.exit h
    | create t l => exact hi.plain _ hok.guarded h rfl (by simp) (by simp) (by simp)
    | delete t l => exact hi.plain _ hok.guarded h rfl (by simp) (by simp) (by simp)
    | nextContext t c => exact hi.plain _ hok.guarded h rfl (by simp) (by simp) (by simp)
    | yield t args => exact hi.plain _ hok.guarded h rfl (by simp) (by simp) (by simp)
    | dqevent t copied => exact hi.plain _ hok.guarded h rfl (by simp) (by simp) (by simp)

end OpenDevice

end LinuxUms
