import LinuxUms.Effects
import LinuxUms.Slab

/-! The memory behind the device: completion lists, workers, schedulers and event nodes, and the
references to tasks that contexts hold. Lists and contexts are freed by callbacks some time after
the last of their readers. -/
namespace LinuxUms

open KernelList

/-- What `ums_worker_create` and `ums_scheduler_create` allocate: the context, and the reference
to its task. -/
structure ContextMem where
  addr : ℕ
  task : ℕ
  deriving DecidableEq

/-- What is passed to `call_rcu`. -/
inductive Callback where
  | complist (a : ℕ)
  | context (m : ContextMem)
  deriving DecidableEq

def Callback.addr : Callback → ℕ
  | .complist a => a
  | .context m => m.addr

def Callback.task : Callback → Option ℕ
  | .complist _ => none
  | .context m => some m.task

/-- `lists` is the id table, `contexts` are the two hash tables together, and `events` are the
nodes in the queues of all schedulers. -/
structure Ledger where
  io : IoState
  mem : Slab
  tasks : Slab
  lists : List (ListId × ℕ)
  contexts : List (ContextRef × ContextMem)
  events : List (Pid × ℕ)
  pending : List Callback
  opened : Bool

/-- What goes well in a call. -/
structure LedgerLuck where
  alloc : Bool := true
  -- the registration in procfs and in the table
  init : Bool := true
  id : Bool := true
  copied : Bool := true
  event : Bool := true

inductive Object where
  | complist (l : ListId)
  | context (c : ContextRef)
  -- behind a pointer that leads to no node
  | wild
  deriving DecidableEq

def Object.ofPtr : Ptr Node → Object
  | .node (.head l) => .complist l
  | .node (.context c) => .context (.worker c)
  | _ => .wild

/-- `list_add` and `list_add_tail` write to the sentinel and to one neighbour. -/
def touchedByAdd (h : Heap Node) (a : Node) : List Object :=
  [.ofPtr (.node a), .ofPtr (h a).prev, .ofPtr (h a).next]

/-- Taking the first entry and replacing the sentinel writes to the ends of the ring, and to
the second entry. -/
def touchedByTake (h : Heap Node) (a : Node) : List Object :=
  touchedByAdd h a ++
    match (h a).next with
    | .node c => [.ofPtr (h c).next]
    | _ => []

/-- The scheduler that a worker notifies. -/
def IoState.notified (s : IoState) (t : Pid) : Option Pid :=
  match s.worker t with
  | some ⟨⟨_, .context p, _⟩, _⟩ => some p
  | _ => none

/-- The contexts and lists that a call reads or writes, apart from those it allocates. -/
def touched (s : IoState) : IoAct → List Object
  | .create _ _ => []
  | .delete _ l => if (s.list l).isSome then [.complist l] else []
  | .enterWorker _ l _ _ => touchedByAdd s.heap (.head l)
  | .enterScheduler _ l => [.complist l]
  | .dqcontext t l _ =>
    if (s.list l).isSome ∧ (s.scheduler t).isSome then
      .context (.scheduler t) :: touchedByTake s.heap (.head l) ++
        -- the loop that makes the links
        ((s.rings (.head l)).getD []).map (fun n => .ofPtr (.node n))
    else []
  | .nextContext _ c => if (s.worker c).isSome then touchedByTake s.heap (.context c) else []
  | .exec t w =>
    if (s.worker w).isSome ∧ (s.scheduler t).isSome then
      [.context (.worker w), .context (.scheduler t)]
    else []
  | .yield t _ =>
    match s.worker t with
    | none => []
    | some ⟨⟨_, .context p, _⟩, some l⟩ =>
      .context (.worker t) :: .context (.scheduler p) :: touchedByAdd s.heap (.head l)
    | some _ => [.wild]
  | .exit t =>
    match s.worker t with
    | none => []
    | some ⟨⟨_, .null, _⟩, _⟩ => [.context (.worker t)]
    | some ⟨⟨_, .context p, _⟩, some l⟩ =>
      [.context (.worker t), .context (.scheduler p), .complist l]
    | some _ => [.wild]
  | .dqevent t _ => if (s.scheduler t).isSome then [.context (.scheduler t)] else []

namespace IoState

/-- The list that a context is attached to. -/
def attached (s : IoState) : ContextRef → Option ListId
  | .worker t => (s.worker t).bind Worker.complist
  | .scheduler t => (s.scheduler t).bind Scheduler.complist

def unregister (s : IoState) : ContextRef → IoState
  | .worker t => { s with worker := Function.update s.worker t none }
  | .scheduler t => { s with scheduler := Function.update s.scheduler t none }

/-- `put_ums_complist` on behalf of a context that leaves its table. -/
def destroyContext (s : IoState) (c : ContextRef) : IoState :=
  match s.attached c with
  | none => s.crash
  | some l =>
    match s.list l with
    | none => s.crash
    | some o => (s.unregister c).putUmsComplist l { o with holders := o.holders.erase c }

end IoState

namespace Ledger

def init : Ledger where
  io := .init
  mem := .empty
  tasks := .empty
  lists := []
  contexts := []
  events := []
  pending := []
  opened := true

variable (s : Ledger)

def addr : Object → Option ℕ
  | .complist l => Keyed.get s.lists l
  | .context c => (Keyed.get s.contexts c).map ContextMem.addr
  | .wild => none

/-- The memory after these have been used. -/
def touch (os : List Object) : Slab := os.foldl (fun m o => m.use (s.addr o)) s.mem

/-- `put_ums_complist`; the last reference takes the list out of the table. -/
def putUmsComplist (l : ListId) : Ledger :=
  match s.io.list l, Keyed.get s.lists l with
  | some o, some a =>
    if o.refcount - 1 = 0 then
      { s with
        lists := Keyed.remove s.lists l
        pending := s.pending ++ [.complist a] }
    else s
  | _, _ => s

/-- `rhashtable_remove_fast` and `call_rcu`. -/
def retire (c : ContextRef) : Ledger :=
  match Keyed.get s.contexts c with
  | some m =>
    { s with
      contexts := Keyed.remove s.contexts c
      pending := s.pending ++ [.context m] }
  | none => s

def destroyContext (c : ContextRef) : Ledger :=
  match s.io.attached c with
  | none => { s with io := s.io.crash }
  | some l =>
    { (s.putUmsComplist l).retire c with
      io := s.io.destroyContext c
      mem := s.touch [.context c, .complist l] }

def umsWorkerDestroy (t : Pid) : Ledger := s.destroyContext (.worker t)

def eventsOf (t : Pid) : List (Pid × ℕ) := s.events.filter (fun e => e.1 = t)

/-- The events of the scheduler are freed before it leaves. -/
def umsSchedulerDestroy (t : Pid) : Ledger :=
  { s with
    events := s.events.filter (fun e => e.1 ≠ t)
    mem := ((s.eventsOf t).map Prod.snd).foldl Slab.free
      ((s.eventsOf t).foldl (fun m (e : Pid × ℕ) => m.use (some e.2))
        (s.touch [.context (.scheduler t)])) }.destroyContext (.scheduler t)

/-- A failed `IDR_L_ALLOC` returns a negative number, which `ums_complist_init` takes for an
id. -/
def createUmsComplist (t : Pid) (l : ListId) (luck : LedgerLuck) : Option Ledger :=
  if luck.alloc = false then some s
  else if luck.copied = false then some { s with mem := s.mem.alloc.free s.mem.next }
  else if luck.id = false then some { s with mem := s.mem.alloc }
  else
    (s.io.step (.create t l)).map fun io =>
      { s with io := io, mem := s.mem.alloc, lists := (l, s.mem.next) :: s.lists }

/-- If the initialisation fails, the memory is freed and the reference to the task is kept. -/
def enterUmsWorkerMode (t : Pid) (act : IoAct) (luck : LedgerLuck) : Option Ledger :=
  if luck.alloc = false then some s
  else if luck.init = false ∨ (s.io.worker t).isSome then
    some { s with mem := s.mem.alloc.free s.mem.next, tasks := s.tasks.alloc }
  else
    (s.io.step act).map fun io =>
      { s with
        io := io
        mem := (s.touch (touched s.io act)).alloc
        tasks := s.tasks.alloc
        contexts := (.worker t, ⟨s.mem.next, s.tasks.next⟩) :: s.contexts }

def enterUmsSchedulerMode (t : Pid) (act : IoAct) (luck : LedgerLuck) : Option Ledger :=
  if luck.alloc = false then some s
  else if luck.init = false ∨ (s.io.scheduler t).isSome then
    some { s with mem := s.mem.alloc.free s.mem.next, tasks := s.tasks.alloc }
  -- no startup event: `ums_scheduler_destroy`
  else if luck.event = false then
    some { s with
      mem := (s.touch (touched s.io act)).alloc
      tasks := s.tasks.alloc
      pending := s.pending ++ [.context ⟨s.mem.next, s.tasks.next⟩] }
  else
    (s.io.step act).map fun io =>
      { s with
        io := io
        mem := (s.touch (touched s.io act)).alloc.alloc
        tasks := s.tasks.alloc
        contexts := (.scheduler t, ⟨s.mem.next, s.tasks.next⟩) :: s.contexts
        events := s.events ++ [(t, s.mem.next + 1)] }

def umsWorkerYield (t : Pid) (act : IoAct) (luck : LedgerLuck) : Option Ledger :=
  if (s.io.worker t).isNone ∨ luck.event = false then some s
  else
    (s.io.step act).map fun io =>
      { s with
        io := io
        mem := (s.touch (touched s.io act)).alloc
        events := s.events ++ (s.io.notified t).toList.map (·, s.mem.next) }

def umsWorkerEnd (t : Pid) (luck : LedgerLuck) : Option Ledger :=
  if (s.io.worker t).isNone ∨ luck.event = false then some s
  else
    (s.io.step (.exit t)).map fun io =>
      match s.io.notified t with
      -- no parent: the event is freed again
      | none =>
        { s with io := io, mem := (s.touch (touched s.io (.exit t))).alloc.free s.mem.next }
      | some p =>
        { { s with
            mem := (s.touch (touched s.io (.exit t))).alloc
            events := s.events ++ [(p, s.mem.next)] }.umsWorkerDestroy t with io := io }

def umsSchedDqevent (t : Pid) (copied : Bool) : Option Ledger :=
  if (s.io.scheduler t).isNone then some s
  else
    (s.io.step (.dqevent t copied)).map fun io =>
      match s.eventsOf t with
      | [] => { s with io := io, mem := s.mem.use none }
      | e :: _ =>
        let m := (s.touch (touched s.io (.dqevent t copied))).use (some e.2)
        if copied then { s with io := io, mem := m.free e.2, events := s.events.erase e }
        else { s with io := io, mem := m, events := e :: s.events.erase e }

def umsComplistDelete (t : Pid) (l : ListId) : Option Ledger :=
  (s.io.step (.delete t l)).map fun io =>
    { s.putUmsComplist l with io := io, mem := s.touch (touched s.io (.delete t l)) }

/-- A call that allocates and frees nothing. -/
def plain (act : IoAct) : Option Ledger :=
  (s.io.step act).map fun io => { s with io := io, mem := s.touch (touched s.io act) }

def umsDevIoctl (act : IoAct) (luck : LedgerLuck) : Option Ledger :=
  if s.io.asleep act.caller ≠ none then none
  else
    match act with
    | .create t l => s.createUmsComplist t l luck
    | .delete t l => s.umsComplistDelete t l
    | .enterWorker t l node zero => s.enterUmsWorkerMode t (.enterWorker t l node zero) luck
    | .enterScheduler t l => s.enterUmsSchedulerMode t (.enterScheduler t l) luck
    | .dqcontext t l copied => s.plain (.dqcontext t l copied)
    | .nextContext t c => s.plain (.nextContext t c)
    | .exec t w => s.plain (.exec t w)
    | .yield t args => s.umsWorkerYield t (.yield t args) luck
    | .exit t => s.umsWorkerEnd t luck
    | .dqevent t copied => s.umsSchedDqevent t copied

def releaseComplist (l : ListId) : Ledger :=
  match s.io.list l with
  | none => { s with io := s.io.crash }
  | some o =>
    { s.putUmsComplist l with
      io := s.io.putUmsComplist l o
      mem := s.touch [.complist l] }

/-- The two `rhashtable_free_and_destroy` of `ums_dev_release`. -/
def releaseContexts (ws ss : List Pid) : Ledger :=
  ss.foldl umsSchedulerDestroy (ws.foldl umsWorkerDestroy s)

def umsDevRelease (ws ss : List Pid) (ls : List ListId) : Ledger :=
  { ls.foldl releaseComplist (s.releaseContexts ws ss) with opened := false }

/-- The `k` oldest callbacks run. -/
def grace (k : ℕ) : Ledger :=
  { s with
    mem := ((s.pending.take k).map Callback.addr).foldl Slab.free s.mem
    tasks := ((s.pending.take k).filterMap Callback.task).foldl Slab.free s.tasks
    pending := s.pending.drop k }

end Ledger

inductive LedgerAct where
  | call (act : IoAct) (luck : LedgerLuck)
  -- the orders in which the tables are walked
  | release (ws ss : List Pid) (ls : List ListId)
  | grace (k : ℕ)

def Ledger.step (s : Ledger) : LedgerAct → Option Ledger
  | .call act luck => if s.opened then s.umsDevIoctl act luck else none
  | .release ws ss ls =>
    if s.opened ∧
        (ws.map ContextRef.worker ++ ss.map ContextRef.scheduler).isPerm
          (Keyed.keys s.contexts) ∧
        ls.isPerm (Keyed.keys (s.releaseContexts ws ss).lists) then
      some (s.umsDevRelease ws ss ls)
    else none
  | .grace k => some (s.grace k)

/-- The holders of a list are the contexts attached to it, and its count is exact. -/
structure Attached (L : ListId → Option ListRec) (A : ContextRef → Option ListId) : Prop where
  count : ∀ l o, L l = some o →
    o.refcount = (if o.deleted then 0 else 1) + (o.holders.length : ℤ) ∧ 1 ≤ o.refcount
  nodup : ∀ l o, L l = some o → o.holders.Nodup
  holder : ∀ l o c, L l = some o → (c ∈ o.holders ↔ A c = some l)
  live : ∀ c l, A c = some l → L l ≠ none

namespace Attached

variable {L : ListId → Option ListRec} {A : ContextRef → Option ListId} {l : ListId}
  {o : ListRec} {c : ContextRef}

theorem create (ok : Attached L A) (hl : L l = none) :
    Attached (Function.update L l (some ⟨1, false, []⟩)) A := by
  have hnobody (c : ContextRef) : A c ≠ some l := fun hc => ok.live c l hc hl
  refine ⟨fun m p hp => ?_, fun m p hp => ?_, fun m p c hp => ?_, fun c m hc => ?_⟩
  · rcases update_some_cases hp with ⟨-, rfl⟩ | ⟨-, hp⟩
    · simp
    · exact ok.count m p hp
  · rcases update_some_cases hp with ⟨-, rfl⟩ | ⟨-, hp⟩
    · exact List.nodup_nil
    · exact ok.nodup m p hp
  · rcases update_some_cases hp with ⟨rfl, rfl⟩ | ⟨-, hp⟩
    · simp [hnobody c]
    · exact ok.holder m p c hp
  · have hml : m ≠ l := by
      rintro rfl
      exact hnobody c hc
    rw [Function.update_of_ne hml]
    exact ok.live c m hc

theorem get (ok : Attached L A) (hc : A c = none) (hl : L l = some o) :
    Attached (Function.update L l
      (some { o with refcount := o.refcount + 1, holders := c :: o.holders }))
      (Function.update A c (some l)) := by
  have hout : c ∉ o.holders := fun hm => by
    rw [ok.holder l o c hl, hc] at hm
    cases hm
  have hothers (d : ContextRef) (hdc : d ≠ c) : Function.update A c (some l) d = A d :=
    Function.update_of_ne hdc _ _
  refine ⟨fun m p hp => ?_, fun m p hp => ?_, fun m p d hp => ?_, fun d m hd => ?_⟩
  · rcases update_some_cases hp with ⟨-, rfl⟩ | ⟨-, hp⟩
    · obtain ⟨hcount, hpos⟩ := ok.count l o hl
      simp only [List.length_cons]
      exact ⟨by omega, by omega⟩
    · exact ok.count m p hp
  · rcases update_some_cases hp with ⟨-, rfl⟩ | ⟨-, hp⟩
    · exact List.nodup_cons.mpr ⟨hout, ok.nodup l o hl⟩
    · exact ok.nodup m p hp
  · rcases update_some_cases hp with ⟨rfl, rfl⟩ | ⟨hml, hp'⟩
    · by_cases hdc : d = c
      · simp [hdc]
      · simp only [List.mem_cons, hdc, false_or, hothers d hdc]
        exact ok.holder m o d hl
    · by_cases hdc : d = c
      · subst hdc
        simp only [Function.update_self, Option.some.injEq]
        exact iff_of_false (fun hm => by simp [ok.holder m p d hp', hc] at hm) (Ne.symm hml)
      · rw [hothers d hdc]
        exact ok.holder m p d hp'
  · by_cases hml : m = l
    · simp [hml]
    · rw [Function.update_of_ne hml]
      rcases update_some_cases hd with ⟨-, rfl⟩ | ⟨-, hd⟩
      · exact absurd rfl hml
      · exact ok.live d m hd

/-- A put that takes one off what is counted. -/
theorem put (ok : Attached L A) (o' : ListRec) (A' : ContextRef → Option ListId)
    (hcount : o'.refcount - 1 = (if o'.deleted then 0 else 1) + (o'.holders.length : ℤ))
    (hnd : o'.holders.Nodup) (hl : ∀ d, d ∈ o'.holders ↔ A' d = some l)
    (hother : ∀ d m, m ≠ l → (A' d = some m ↔ A d = some m)) :
    Attached (putList L l o') A' := by
  unfold putList
  split
  · rename_i hzero
    -- the last reference: nobody is attached any more
    have hnobody (d : ContextRef) : A' d ≠ some l := by
      have hlen : o'.holders.length = 0 := by
        split at hcount <;> omega
      rw [ne_eq, ← hl d, List.length_eq_zero_iff.mp hlen]
      simp
    refine ⟨fun m p hp => ?_, fun m p hp => ?_, fun m p d hp => ?_, fun d m hd => ?_⟩
    · exact ok.count m p (of_update_none hp).2
    · exact ok.nodup m p (of_update_none hp).2
    · obtain ⟨hml, hp⟩ := of_update_none hp
      rw [hother d m hml]
      exact ok.holder m p d hp
    · have hml : m ≠ l := by
        rintro rfl
        exact hnobody d hd
      rw [Function.update_of_ne hml]
      exact ok.live d m ((hother d m hml).mp hd)
  · rename_i hne
    refine ⟨fun m p hp => ?_, fun m p hp => ?_, fun m p d hp => ?_, fun d m hd => ?_⟩
    · rcases update_some_cases hp with ⟨-, rfl⟩ | ⟨-, hp⟩
      · refine ⟨hcount, ?_⟩
        simp only
        split at hcount <;> omega
      · exact ok.count m p hp
    · rcases update_some_cases hp with ⟨-, rfl⟩ | ⟨-, hp⟩
      · exact hnd
      · exact ok.nodup m p hp
    · rcases update_some_cases hp with ⟨rfl, rfl⟩ | ⟨hml, hp⟩
      · exact hl d
      · rw [hother d m hml]
        exact ok.holder m p d hp
    · by_cases hml : m = l
      · simp [hml]
      · rw [Function.update_of_ne hml]
        exact ok.live d m ((hother d m hml).mp hd)

theorem delete (ok : Attached L A) (hl : L l = some o) (ho : o.deleted = false) :
    Attached (putList L l { o with deleted := true }) A := by
  have hcount := (ok.count l o hl).1
  refine ok.put _ A ?_ (ok.nodup l o hl) (ok.holder l o · hl) (fun _ _ _ => Iff.rfl)
  simp only [ho, Bool.false_eq_true, if_false, if_true] at hcount ⊢
  omega

theorem drop (ok : Attached L A) (hl : L l = some o) (hc : A c = some l) :
    Attached (putList L l { o with holders := o.holders.erase c })
      (Function.update A c none) := by
  have hmem : c ∈ o.holders := (ok.holder l o c hl).mpr hc
  have hcount := (ok.count l o hl).1
  have hnd := ok.nodup l o hl
  have hpos := List.length_pos_of_mem hmem
  refine ok.put _ _ ?_ (hnd.erase c) (fun d => ?_) (fun d m hml => ?_)
  · simp only [List.length_erase_of_mem hmem]
    omega
  · rw [hnd.mem_erase_iff, ok.holder l o d hl]
    by_cases hdc : d = c
    · simp [hdc]
    · simp [hdc]
  · by_cases hdc : d = c
    · subst hdc
      simp [hc, Ne.symm hml]
    · rw [Function.update_of_ne hdc]

end Attached

end LinuxUms
