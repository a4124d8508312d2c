import LinuxUms.AtomicSections

/-! Why nothing that a handler has found is freed under it. A list that was looked up is kept by the
read section, or by a reference of the scheduler that looked it up, and a list that a thread creates
or releases is known to nobody else. -/
namespace LinuxUms

open Transition

def Role.ref (t : Pid) : Role → ContextRef
  | .worker => .worker t
  | .scheduler => .scheduler t

def Entering.role : Entering → Role
  | .worker => .worker
  | .scheduler _ => .scheduler

/-- What a thread needs for an operation. -/
inductive Need where
  | nothing
  -- a read section, not slept in
  | reading
  -- a list that it has looked up
  | found (a : Addr)
  -- a list that its worker or scheduler has a reference to
  | own (r : Role) (a : Addr)
  -- a list that it creates: without an id, with the id `i`, initialised
  | blank (a : Addr)
  | listed (a : Addr) (i : ListId)
  | made (a : Addr)
  -- a list that it releases, before and after its id is removed
  | releasing (a : Addr)
  | removed (a : Addr)
  -- the error paths of an enter that has found no list or got no startup event
  | never

namespace Op

def need : Op → Need
  | find _ => .reading
  | idrPreload a | idrLockAlloc a | idrAlloc a | idrUnlockRemove .undo a | freeUmsComplist a =>
    .blank a
  | idrUnlockAlloc a i | umsComplistInit a i => .listed a i
  | copyId a | idrLockRemove .undo a | idrRemove .undo a => .made a
  | wakeUpAll _ a | idrLockRemove (.release _) a | idrRemove (.release _) a => .releasing a
  | idrUnlockRemove (.release _) a | callRcu _ a => .removed a
  | getUmsComplist _ a | putUmsComplist .delete a | findScheduler a | addLock .putBack a _
  | addLink .putBack a _ | addUnlock .putBack a | addWake .putBack a | takeLock (.contexts a _)
  | takeTest (.contexts a _) | takeUnlockWait (.contexts a _) | takeWait (.contexts a _)
  | takeBlocked (.contexts a _) | takeFirst (.contexts a _) | takeUnlock (.contexts a _) _
  | symlinkFirst a _ _ _ | symlinkRest a _ _ _ | copyContext a _ => .found a
  | enterUnlock e a => .own e.role a
  | allocStartup a _ => .own .scheduler a
  | suspendWorker a | addLock _ a _ | addLink _ a _ | addUnlock _ a | addWake _ a
  | eventLock (.yield a) _ | eventAdd (.yield a) _ | eventUnlock (.yield a) _
  | eventWake (.yield a) _ | eventLock (.finish a) _ | eventAdd (.finish a) _
  | eventUnlock (.finish a) _ | eventWake (.finish a) _ | switchBack a _ | wakeUpContext a _
  | putUmsComplist .worker a => .own .worker a
  | putUmsComplist (.scheduler _) _ | putUmsComplist .entering _ | putUnassigned _
  | removeWorker .entering | destroyLock _ | dropEvents _ | destroyUnlock _
  | removeScheduler _ => .never
  | _ => .nothing

/-- The scheduler that an operation is about. -/
def scheduler : Op → Option Addr
  | rcuReadLock (.complist (.enter (.scheduler q)) _) | find (.complist (.enter (.scheduler q)) _)
  | getUmsComplist (.scheduler q) _ | enterUnlock (.scheduler q) _ | allocStartup _ q
  | eventLock _ q | eventAdd _ q | eventUnlock _ q | eventWake _ q
  | takeLock (.contexts _ q) | takeTest (.contexts _ q) | takeUnlockWait (.contexts _ q)
  | takeWait (.contexts _ q) | takeBlocked (.contexts _ q) | takeFirst (.contexts _ q)
  | takeUnlock (.contexts _ q) _
  | takeLock (.events q) | takeTest (.events q) | takeUnlockWait (.events q)
  | takeWait (.events q) | takeBlocked (.events q) | takeFirst (.events q)
  | takeUnlock (.events q) _
  | symlinkFirst _ q _ _ | symlinkRest _ q _ _ | copyEvent q | removeLink _ q | switchTo _ q
  | switchBack _ q | wakeUpContext _ q | destroyLock q | dropEvents q | destroyUnlock q
  | removeScheduler q | putUmsComplist (.scheduler q) _ => some q
  | _ => none

/-- The list that an operation is about. -/
def complist : Op → Option Addr
  | idrPreload a | idrLockAlloc a | idrAlloc a | idrUnlockAlloc a _ | umsComplistInit a _
  | copyId a | idrLockRemove _ a | idrRemove _ a | idrUnlockRemove _ a | freeUmsComplist a
  | wakeUpAll _ a | callRcu _ a | getUmsComplist _ a | putUmsComplist _ a | enterUnlock _ a
  | suspendWorker a | allocStartup a _ | addLock _ a _ | addLink _ a _ | addUnlock _ a
  | addWake _ a | eventLock (.yield a) _ | eventAdd (.yield a) _ | eventUnlock (.yield a) _
  | eventWake (.yield a) _ | eventLock (.finish a) _ | eventAdd (.finish a) _
  | eventUnlock (.finish a) _ | eventWake (.finish a) _ | takeLock (.contexts a _)
  | takeTest (.contexts a _) | takeUnlockWait (.contexts a _) | takeWait (.contexts a _)
  | takeBlocked (.contexts a _) | takeFirst (.contexts a _) | takeUnlock (.contexts a _) _
  | findScheduler a | symlinkFirst a _ _ _ | symlinkRest a _ _ _ | copyContext a _
  | switchBack a _ | wakeUpContext a _ => some a
  | _ => none

/-- What can stand behind another operation. -/
def free : Op → Bool
  | rcuReadUnlock | schedule | procRemove .worker | removeWorker .worker => true
  | _ => false

end Op

namespace Kernel

/-- Thread `t` has not returned from creating the list `o` at `a`. -/
structure Creates (s : Kernel) (t : Pid) (a : Addr) (o : ComplistObj) : Prop where
  object : s.complist a = some o
  ready : o.ready = false
  creator : o.creator = t
  holders : o.holders = []
  deleted : o.deleted = false
  waits : s.rcu.waits (.complist a) = none

/-- The put of thread `t` was the last. -/
structure Releases (s : Kernel) (t : Pid) (a : Addr) (o : ComplistObj) : Prop where
  object : s.complist a = some o
  ready : o.ready = true
  refcount : o.refcount = 0
  releaser : o.releaser = some t
  waits : s.rcu.waits (.complist a) = none

def Meets (s : Kernel) (t : Pid) : Need → Prop
  | .nothing => True
  | .reading => t ∈ s.rcu.readers
  | .found a => ∃ o, s.complist a = some o ∧ o.ready = true ∧
      (s.rcu.Shields t (.complist a) ∨ .scheduler t ∈ o.holders)
  | .own r a => ∃ o, s.complist a = some o ∧ o.ready = true ∧ r.ref t ∈ o.holders
  | .blank a => ∃ o, s.Creates t a o ∧ ∀ j, s.idr j ≠ some a
  | .listed a i => ∃ o, s.Creates t a o ∧ ∀ j, s.idr j = some a → j = i
  | .made a => ∃ o, s.Creates t a o ∧ o.refcount = 1 ∧ ∀ j, s.idr j = some a → j = o.id
  | .releasing a => ∃ o, s.Releases t a o
  | .removed a => ∃ o, s.Releases t a o ∧ ∀ j, s.idr j ≠ some a
  | .never => False

def OpOk (s : Kernel) (t : Pid) (op : Op) : Prop :=
  s.Meets t op.need ∧ ∀ q, op.scheduler = some q → s.scheduler q ≠ none

def HeadOk (s : Kernel) (t : Pid) : List Op → Prop
  | [] => True
  | op :: tail => s.OpOk t op ∧ ∀ x ∈ tail, x.free = true

/-- The worker of `t` has a reference to its list. -/
def Settled (s : Kernel) (t : Pid) : Prop :=
  ∀ w a, s.workers t = some w → w.complist = some a → s.Meets t (.own .worker a)

/-- A thread that is alive keeps exactly to the levels, and has what its next operation needs. -/
def TaskOk (s : Kernel) (t : Pid) (x : Task) : Prop :=
  (x.dead = true ∧ x.rest = []) ∨
    ∃ b, flow Op.before Op.after ((x.rcu, x.spin), b) x.rest = some ((0, 0), false) ∧
      (b = false → s.Settled t) ∧ s.HeadOk t x.rest

/-- The tables and the memory behind them. -/
structure Core (s : Kernel) : Prop where
  idr : ∀ i a, s.idr i = some a → ∃ o, s.complist a = some o ∧
    s.rcu.waits (.complist a) = none ∧ (o.ready = true → o.id = i)
  count : ∀ a o, s.complist a = some o → o.ready = true →
    o.refcount = (if o.deleted then 0 else 1) + (o.holders.length : ℤ)
  waits : ∀ a o, s.complist a = some o → s.rcu.waits (.complist a) ≠ none →
    o.ready = true ∧ o.refcount = 0
  fresh : ∀ a, s.nextComplist ≤ a → s.complist a = none ∧ s.rcu.waits (.complist a) = none
  schedulers : ∀ t q, s.schedulers t = some q → s.scheduler q ≠ none
  parents : ∀ t w q, s.workers t = some w → w.parent = some q → s.scheduler q ≠ none
  kept : ∀ q, s.rcu.waits (.scheduler q) = none

/-- What an operation of `t` leaves of what other threads rely on. -/
structure Evolves (s s' : Kernel) (t : Pid) : Prop where
  ready : ∀ a o, s.complist a = some o → o.ready = true → ∃ o', s'.complist a = some o' ∧
    o'.ready = true ∧ (∀ c ∈ o.holders, c.task ≠ t → c ∈ o'.holders) ∧
    (o.refcount = 0 → o'.refcount = 0 ∧ o'.releaser = o.releaser)
  raw : ∀ a o, s.complist a = some o → o.ready = false → o.creator ≠ t → s'.complist a = some o
  idr : ∀ i a, s'.idr i = some a → s.idr i = some a ∨
    ∃ o, s.complist a = some o ∧ o.ready = false ∧ o.creator = t
  readers : ∀ u, u ≠ t → u ∈ s.rcu.readers → u ∈ s'.rcu.readers
  shields : ∀ u o, u ≠ t → s.rcu.Shields u o → s'.rcu.Shields u o
  waits : ∀ a o, s.complist a = some o → s.rcu.waits (.complist a) = none →
    s'.rcu.waits (.complist a) = none ∨ (o.ready = true ∧ o.releaser = some t)
  scheduler : ∀ q, s.scheduler q ≠ none → s'.scheduler q ≠ none
  workers : ∀ u w a, u ≠ t → s'.workers u = some w → w.complist = some a →
    ∃ v, s.workers u = some v ∧ v.complist = some a

variable {s s' : Kernel} {t u : Pid}

theorem Evolves.refl (s : Kernel) (t : Pid) : Evolves s s t where
  ready _ o ho hr := ⟨o, ho, hr, fun _ hc _ => hc, fun h => ⟨h, rfl⟩⟩
  raw _ _ ho _ _ := ho
  idr _ _ h := Or.inl h
  readers _ _ h := h
  shields _ _ _ h := h
  waits _ _ _ h := Or.inl h
  scheduler _ h := h
  workers _ w _ _ hw ha := ⟨w, hw, ha⟩

theorem Evolves.creates (h : Evolves s s' t) (hne : u ≠ t) (a : Addr) (o : ComplistObj)
    (hc : s.Creates u a o) : s'.Creates u a o where
  object := h.raw a o hc.object hc.ready (hc.creator ▸ hne)
  ready := hc.ready
  creator := hc.creator
  holders := hc.holders
  deleted := hc.deleted
  waits := by
    rcases h.waits a o hc.object hc.waits with hw | ⟨hr, -⟩
    · exact hw
    · rw [hc.ready] at hr
      cases hr

/-- The ids of a list that another thread creates are the same. -/
theorem Evolves.idr_creates (h : Evolves s s' t) (hne : u ≠ t) (a : Addr) (o : ComplistObj)
    (hc : s.Creates u a o) (i : ListId) (hi : s'.idr i = some a) : s.idr i = some a := by
  rcases h.idr i a hi with hs | ⟨o', ho', -, ht⟩
  · exact hs
  · obtain rfl := Option.some.inj (hc.object.symm.trans ho')
    exact absurd (hc.creator.symm.trans ht) hne

theorem Evolves.releases (h : Evolves s s' t) (hne : u ≠ t) (a : Addr) (o : ComplistObj)
    (hc : s.Releases u a o) : ∃ o', s'.Releases u a o' := by
  obtain ⟨o', ho', hr', -, hzero⟩ := h.ready a o hc.object hc.ready
  obtain ⟨hcount, hrel⟩ := hzero hc.refcount
  refine ⟨o', ho', hr', hcount, hrel.trans hc.releaser, ?_⟩
  rcases h.waits a o hc.object hc.waits with hw | ⟨-, ht⟩
  · exact hw
  · exact absurd (Option.some.inj (hc.releaser.symm.trans ht)) hne

theorem Role.ref_task (r : Role) (t : Pid) : (r.ref t).task = t := by
  cases r <;> rfl

/-- What another thread needs is still there. -/
theorem Evolves.meets (h : Evolves s s' t) (hne : u ≠ t) (n : Need) (hn : s.Meets u n) :
    s'.Meets u n := by
  cases n with
  | nothing => trivial
  | reading => exact h.readers u hne hn
  | found a =>
    obtain ⟨o, ho, hr, hkeep⟩ := hn
    obtain ⟨o', ho', hr', hholders, -⟩ := h.ready a o ho hr
    exact ⟨o', ho', hr', hkeep.imp (h.shields u _ hne) fun hc => hholders _ hc hne⟩
  | own r a =>
    obtain ⟨o, ho, hr, hc⟩ := hn
    obtain ⟨o', ho', hr', hholders, -⟩ := h.ready a o ho hr
    refine ⟨o', ho', hr', hholders _ hc ?_⟩
    rw [Role.ref_task]
    exact hne
  | blank a =>
    obtain ⟨o, hc, hid⟩ := hn
    exact ⟨o, h.creates hne a o hc, fun j hj => hid j (h.idr_creates hne a o hc j hj)⟩
  | listed a i =>
    obtain ⟨o, hc, hid⟩ := hn
    exact ⟨o, h.creates hne a o hc, fun j hj => hid j (h.idr_creates hne a o hc j hj)⟩
  | made a =>
    obtain ⟨o, hc, hcount, hid⟩ := hn
    exact ⟨o, h.creates hne a o hc, hcount, fun j hj => hid j (h.idr_creates hne a o hc j hj)⟩
  | releasing a =>
    obtain ⟨o, hc⟩ := hn
    exact h.releases hne a o hc
  | removed a =>
    obtain ⟨o, hc, hid⟩ := hn
    obtain ⟨o', hc'⟩ := h.releases hne a o hc
    refine ⟨o', hc', fun j hj => ?_⟩
    rcases h.idr j a hj with hs | ⟨o'', ho'', hr'', -⟩
    · exact hid j hs
    · obtain rfl := Option.some.inj (hc.object.symm.trans ho'')
      rw [hc.ready] at hr''
      cases hr''
  | never => exact hn

theorem Evolves.headOk (h : Evolves s s' t) (hne : u ≠ t) (ops : List Op) (ho : s.HeadOk u ops) :
    s'.HeadOk u ops := by
  cases ops with
  | nil => trivial
  | cons op tail =>
    obtain ⟨⟨hneed, hq⟩, hfree⟩ := ho
    exact ⟨⟨h.meets hne _ hneed, fun q hop => h.scheduler q (hq q hop)⟩, hfree⟩

theorem Evolves.settled (h : Evolves s s' t) (hne : u ≠ t) (hs : s.Settled u) : s'.Settled u := by
  intro w a hw ha
  obtain ⟨v, hv, hva⟩ := h.workers u w a hne hw ha
  exact h.meets hne _ (hs v a hv hva)

theorem Evolves.taskOk (h : Evolves s s' t) (hne : u ≠ t) (x : Task) (hx : s.TaskOk u x) :
    s'.TaskOk u x := by
  rcases hx with hdead | ⟨b, hflow, hset, hhead⟩
  · exact Or.inl hdead
  · exact Or.inr ⟨b, hflow, fun hb => h.settled hne (hset hb), h.headOk hne _ hhead⟩

/-- The list at `a` changes. If it is not ready, its creator changes it. -/
theorem Evolves.setComplist {a : Addr} {o o' : ComplistObj} (ho : s.complist a = some o)
    (hready : o.ready = true → o'.ready = true ∧
      (∀ c ∈ o.holders, c.task ≠ t → c ∈ o'.holders) ∧
      (o.refcount = 0 → o'.refcount = 0 ∧ o'.releaser = o.releaser))
    (hraw : o.ready = false → o.creator = t) : Evolves s (s.setComplist a o') t :=
  { Evolves.refl s t with
    ready := by
      intro b x hx hr
      by_cases hba : b = a
      · subst hba
        obtain rfl := Option.some.inj (ho.symm.trans hx)
        exact ⟨o', Function.update_self .., hready hr⟩
      · exact ⟨x, (Function.update_of_ne hba ..).trans hx, hr, fun _ hc _ => hc, fun h => ⟨h, rfl⟩⟩
    raw := by
      intro b x hx hr hne
      have hba : b ≠ a := by
        rintro rfl
        obtain rfl := Option.some.inj (ho.symm.trans hx)
        exact hne (hraw hr)
      exact (Function.update_of_ne hba ..).trans hx }

theorem Core.lt_next (hc : s.Core) {a : Addr} {o : ComplistObj} (ho : s.complist a = some o) :
    a < s.nextComplist := by
  by_contra hle
  rw [(hc.fresh a (Int.not_lt.mp hle)).1] at ho
  cases ho

theorem Core.setComplist (hc : s.Core) {a : Addr} {o o' : ComplistObj}
    (ho : s.complist a = some o)
    (hid : ∀ i, s.idr i = some a → o'.ready = true → o'.id = i)
    (hcount : o'.ready = true →
      o'.refcount = (if o'.deleted then 0 else 1) + (o'.holders.length : ℤ))
    (hwaits : s.rcu.waits (.complist a) ≠ none → o'.ready = true ∧ o'.refcount = 0) :
    (s.setComplist a o').Core :=
  { hc with
    idr := by
      intro i b hi
      obtain ⟨x, hx, hw, hxi⟩ := hc.idr i b hi
      by_cases hba : b = a
      · subst hba
        exact ⟨o', Function.update_self .., hw, hid i hi⟩
      · exact ⟨x, (Function.update_of_ne hba ..).trans hx, hw, hxi⟩
    count := by
      intro b x hx hr
      rcases KernelList.update_some_cases hx with ⟨rfl, rfl⟩ | ⟨-, hx⟩
      · exact hcount hr
      · exact hc.count b x hx hr
    waits := by
      intro b x hx hw
      rcases KernelList.update_some_cases hx with ⟨rfl, rfl⟩ | ⟨-, hx⟩
      · exact hwaits hw
      · exact hc.waits b x hx hw
    fresh := by
      intro b hb
      have hba : b ≠ a := by
        rintro rfl
        exact Int.not_le.mpr (hc.lt_next ho) hb
      exact ⟨(Function.update_of_ne hba ..).trans (hc.fresh b hb).1, (hc.fresh b hb).2⟩ }

/-- What an operation of `t` leaves behind, for the others and for what `t` does next. -/
structure Good (s s' : Kernel) (t : Pid) (op : Op) (r : Option (List Op)) : Prop where
  core : s'.Core
  evolves : Evolves s s' t
  next : ∀ ops, r = some ops → s'.HeadOk t ops
  settled : op.detachedDuring = false → s'.Settled t

variable {op : Op} {r : Option (List Op)} {ops : List Op}

theorem headOk_one (h : s.OpOk t op) : s.HeadOk t [op] := ⟨h, by simp⟩

/-- An operation that is about no scheduler has what it needs if its list is as it should be. -/
theorem opOk_of_meets (hneed : s.Meets t op.need) (hnone : op.scheduler = none) :
    s.OpOk t op := ⟨hneed, fun q hq => by simp [hnone] at hq⟩

theorem headOk_meets (hneed : s.Meets t op.need) (hnone : op.scheduler = none) :
    s.HeadOk t [op] := headOk_one (opOk_of_meets hneed hnone)

theorem headOk_cons (h : s.OpOk t op) (hfree : ops.all Op.free = true) :
    s.HeadOk t (op :: ops) := ⟨h, List.all_eq_true.mp hfree⟩

/-- An operation that changes no memory. -/
theorem Good.stay (hc : s.Core) (hset : op.detachedDuring = false → s.Settled t)
    (hnext : ∀ ops, r = some ops → s.HeadOk t ops) : Good s s t op r :=
  ⟨hc, .refl s t, hnext, hset⟩

theorem Good.to (hc : s.Core) (hset : op.detachedDuring = false → s.Settled t)
    (hnext : s.HeadOk t ops) : Good s s t op (some ops) :=
  .stay hc hset fun _ he => Option.some.inj he ▸ hnext

theorem Good.dies (hc : s.Core) (hset : op.detachedDuring = false → s.Settled t) :
    Good s s t op none := .stay hc hset fun _ he => by cases he

/-- What `t` needs is about lists, ids and read sections. -/
theorem meets_of_eq (hl : s'.complist = s.complist) (hi : s'.idr = s.idr) (hr : s'.rcu = s.rcu)
    (n : Need) (h : s.Meets t n) : s'.Meets t n := by
  have hcreates (a : Addr) (o : ComplistObj) (hc : s.Creates t a o) : s'.Creates t a o :=
    ⟨hl ▸ hc.object, hc.ready, hc.creator, hc.holders, hc.deleted, hr ▸ hc.waits⟩
  have hreleases (a : Addr) (o : ComplistObj) (hc : s.Releases t a o) : s'.Releases t a o :=
    ⟨hl ▸ hc.object, hc.ready, hc.refcount, hc.releaser, hr ▸ hc.waits⟩
  cases n with
  | nothing => trivial
  | reading =>
    change t ∈ s'.rcu.readers
    rw [hr]
    exact h
  | found a =>
    obtain ⟨o, ho, hready, hkeep⟩ := h
    exact ⟨o, hl ▸ ho, hready, hr ▸ hkeep⟩
  | own r a =>
    obtain ⟨o, ho, hready, hc⟩ := h
    exact ⟨o, hl ▸ ho, hready, hc⟩
  | blank a =>
    obtain ⟨o, hc, hid⟩ := h
    exact ⟨o, hcreates a o hc, hi ▸ hid⟩
  | listed a i =>
    obtain ⟨o, hc, hid⟩ := h
    exact ⟨o, hcreates a o hc, hi ▸ hid⟩
  | made a =>
    obtain ⟨o, hc, hcount, hid⟩ := h
    exact ⟨o, hcreates a o hc, hcount, hi ▸ hid⟩
  | releasing a =>
    obtain ⟨o, hc⟩ := h
    exact ⟨o, hreleases a o hc⟩
  | removed a =>
    obtain ⟨o, hc, hid⟩ := h
    exact ⟨o, hreleases a o hc, hi ▸ hid⟩
  | never => exact h

theorem headOk_of_eq (hl : s'.complist = s.complist) (hi : s'.idr = s.idr) (hr : s'.rcu = s.rcu)
    (hq : ∀ q, s.scheduler q ≠ none → s'.scheduler q ≠ none) (h : s.HeadOk t ops) :
    s'.HeadOk t ops := by
  cases ops with
  | nil => trivial
  | cons op tail =>
    obtain ⟨⟨hneed, hop⟩, hfree⟩ := h
    exact ⟨⟨meets_of_eq hl hi hr _ hneed, fun q he => hq q (hop q he)⟩, hfree⟩

theorem Good.setHeld (h : Good s s t op r) (f : SpinLock → Option Pid) :
    Good s { s with held := f } t op r where
  core := { h.core with }
  evolves := { Evolves.refl s t with }
  next ops he := headOk_of_eq (s := s) rfl rfl rfl (fun _ hq => hq) (h.next ops he)
  settled := h.settled

theorem Good.spinLock {l : SpinLock} (hc : s.Core)
    (hset : op.detachedDuring = false → s.Settled t) (hnext : s.HeadOk t ops)
    (h : s.spinLock t l ops = some (s', r)) : Good s s' t op r := by
  rcases spinLock_some h with ⟨-, he⟩ | he <;> obtain ⟨rfl, rfl⟩ := Prod.mk.inj he
  · exact .dies hc hset
  · exact (Good.to hc hset hnext).setHeld _

theorem Good.spinUnlock {l : SpinLock} (hc : s.Core)
    (hset : op.detachedDuring = false → s.Settled t) (hnext : s.HeadOk t ops)
    (h : s.spinUnlock l ops = some (s', r)) : Good s s' t op r := by
  rcases spinUnlock_some h with ⟨-, he⟩ | he <;> obtain ⟨rfl, rfl⟩ := Prod.mk.inj he
  · exact .dies hc hset
  · exact (Good.to hc hset hnext).setHeld _

theorem Good.useComplist {a : Addr} {f : ComplistObj → Outcome} (hc : s.Core)
    (hset : op.detachedDuring = false → s.Settled t)
    (hf : ∀ o, s.complist a = some o → Good s (f o).1 t op (f o).2)
    (h : s.useComplist a f = some (s', r)) : Good s s' t op r := by
  rcases useComplist_some h with ⟨-, he⟩ | ⟨o, ho, he⟩
  · obtain ⟨rfl, rfl⟩ := Prod.mk.inj he
    exact .dies hc hset
  · have hgood := hf o ho
    rw [← he] at hgood
    exact hgood

theorem Good.useScheduler {q : Addr} {f : SchedulerObj → Outcome} (hc : s.Core)
    (hset : op.detachedDuring = false → s.Settled t)
    (hf : ∀ y, s.scheduler q = some y → Good s (f y).1 t op (f y).2)
    (h : s.useScheduler q f = some (s', r)) : Good s s' t op r := by
  rcases useScheduler_some h with ⟨-, he⟩ | ⟨y, hy, he⟩
  · obtain ⟨rfl, rfl⟩ := Prod.mk.inj he
    exact .dies hc hset
  · have hgood := hf y hy
    rw [← he] at hgood
    exact hgood

theorem Settled.mono (h : s.Settled t) (hw : s'.workers t = s.workers t)
    (hl : ∀ a o, s.complist a = some o → o.ready = true → .worker t ∈ o.holders →
      ∃ o', s'.complist a = some o' ∧ o'.ready = true ∧ .worker t ∈ o'.holders) :
    s'.Settled t := by
  intro w a hws ha
  obtain ⟨o, ho, hr, hc⟩ := h w a (hw ▸ hws) ha
  exact hl a o ho hr hc

/-- A list that is ready keeps the worker of `t`, or the list is not ready. -/
theorem Settled.setComplist (h : s.Settled t) {a : Addr} {o o' : ComplistObj}
    (ho : s.complist a = some o) (hkeep : o.ready = true → .worker t ∈ o.holders →
      o'.ready = true ∧ .worker t ∈ o'.holders) : (s.setComplist a o').Settled t := by
  refine h.mono rfl fun b x hx hr hc => ?_
  by_cases hba : b = a
  · subst hba
    obtain rfl := Option.some.inj (ho.symm.trans hx)
    exact ⟨o', Function.update_self .., hkeep hr hc⟩
  · exact ⟨x, (Function.update_of_ne hba ..).trans hx, hr, hc⟩

theorem Core.unlisted (hc : s.Core) {a : Addr} (ha : s.complist a = none) (i : ListId) :
    s.idr i ≠ some a := by
  intro hi
  obtain ⟨o, ho, -⟩ := hc.idr i a hi
  rw [ha] at ho
  cases ho

theorem good_allocUmsComplist (hc : s.Core) (hset : s.Settled t) :
    Good s { s.setComplist s.nextComplist { creator := t } with
      nextComplist := s.nextComplist + 1 } t .allocUmsComplist
      (some [.idrPreload s.nextComplist]) := by
  obtain ⟨hnone, hwnone⟩ := hc.fresh s.nextComplist (Int.le_refl _)
  have hne (b : Addr) (o : ComplistObj) (ho : s.complist b = some o) : b ≠ s.nextComplist := by
    rintro rfl
    rw [hnone] at ho
    cases ho
  refine ⟨?_, ?_, ?_, fun _ => ?_⟩
  · refine { hc with idr := fun i b hi => ?_, count := ?_, waits := ?_, fresh := fun b hb => ?_ }
    · obtain ⟨o, ho, hrest⟩ := hc.idr i b hi
      exact ⟨o, (Function.update_of_ne (hne b o ho) ..).trans ho, hrest⟩
    · intro b o ho hr
      rcases KernelList.update_some_cases ho with ⟨-, rfl⟩ | ⟨-, ho⟩
      · cases hr
      · exact hc.count b o ho hr
    · intro b o ho hw
      rcases KernelList.update_some_cases ho with ⟨rfl, -⟩ | ⟨-, ho⟩
      · exact absurd hwnone hw
      · exact hc.waits b o ho hw
    · have hlt : s.nextComplist < b := Int.lt_of_lt_of_le (Int.lt_succ _) hb
      obtain ⟨hb1, hb2⟩ := hc.fresh b (Int.le_of_lt hlt)
      exact ⟨(Function.update_of_ne (Int.ne_of_gt hlt) ..).trans hb1, hb2⟩
  · exact { Evolves.refl s t with
      ready := fun b o ho hr => ⟨o, (Function.update_of_ne (hne b o ho) ..).trans ho, hr,
        fun _ h _ => h, fun h => ⟨h, rfl⟩⟩
      raw := fun b o ho _ _ => (Function.update_of_ne (hne b o ho) ..).trans ho }
  · intro ops he
    obtain rfl := Option.some.inj he
    refine headOk_meets ⟨{ creator := t }, ?_, fun j => hc.unlisted hnone j⟩ rfl
    exact ⟨Function.update_self .., rfl, rfl, rfl, rfl, hwnone⟩
  · exact hset.mono rfl fun b o ho hr hw =>
      ⟨o, (Function.update_of_ne (hne b o ho) ..).trans ho, hr, hw⟩

variable {a : Addr}

theorem good_idrAlloc (hc : s.Core) (hset : s.Settled t) (h : s.Meets t (.blank a)) (i : ListId) :
    Good s { s with idr := Function.update s.idr i (some a) } t (.idrAlloc a)
      (some [.idrUnlockAlloc a i]) := by
  obtain ⟨o, ho, hid⟩ := h
  refine ⟨?_, ?_, ?_, fun _ => hset⟩
  · refine { hc with idr := fun j b hj => ?_ }
    rcases KernelList.update_some_cases hj with ⟨rfl, rfl⟩ | ⟨-, hj⟩
    · exact ⟨o, ho.object, ho.waits, fun hr => absurd hr (by simp [ho.ready])⟩
    · exact hc.idr j b hj
  · refine { Evolves.refl s t with idr := fun j b hj => ?_ }
    rcases KernelList.update_some_cases hj with ⟨rfl, rfl⟩ | ⟨-, hj⟩
    · exact Or.inr ⟨o, ho.object, ho.ready, ho.creator⟩
    · exact Or.inl hj
  · intro ops he
    obtain rfl := Option.some.inj he
    refine headOk_meets ⟨o, { ho with }, fun j hj => ?_⟩ rfl
    rcases KernelList.update_some_cases hj with ⟨rfl, -⟩ | ⟨-, hj⟩
    · rfl
    · exact absurd hj (hid j)

theorem good_umsComplistInit (hc : s.Core) (hset : s.Settled t) (i : ListId)
    (h : s.Meets t (.listed a i)) (o : ComplistObj) (hobj : s.complist a = some o) :
    Good s (s.setComplist a { o with id := i, refcount := 1, contexts := [] }) t
      (.umsComplistInit a i) (some [.copyId a]) := by
  obtain ⟨o', ho, hid⟩ := h
  obtain rfl := Option.some.inj (hobj.symm.trans ho.object)
  have hraw : ¬ o.ready = true := by simp [ho.ready]
  refine ⟨?_, ?_, ?_, fun _ => ?_⟩
  · exact hc.setComplist hobj (fun _ _ hr => absurd hr hraw) (fun hr => absurd hr hraw)
      (fun hw => absurd ho.waits hw)
  · exact .setComplist hobj (fun hr => absurd hr hraw) (fun _ => ho.creator)
  · intro ops he
    obtain rfl := Option.some.inj he
    refine headOk_meets ⟨_, ⟨Function.update_self .., ?_, ?_, ?_, ?_, ho.waits⟩, rfl, hid⟩ rfl
    · exact ho.ready
    · exact ho.creator
    · exact ho.holders
    · exact ho.deleted
  · exact hset.setComplist hobj fun hr => absurd hr hraw

/-- The creator returns. -/
theorem good_copyId (hc : s.Core) (hset : s.Settled t) (h : s.Meets t (.made a)) (o : ComplistObj)
    (hobj : s.complist a = some o) :
    Good s (s.setComplist a { o with ready := true }) t (.copyId a) (some []) := by
  obtain ⟨o', ho, hcount, hid⟩ := h
  obtain rfl := Option.some.inj (hobj.symm.trans ho.object)
  have hraw : ¬ o.ready = true := by simp [ho.ready]
  refine ⟨?_, ?_, ?_, fun _ => ?_⟩
  · refine hc.setComplist hobj (fun i hi _ => (hid i hi).symm) (fun _ => ?_)
      (fun hw => absurd ho.waits hw)
    simp [hcount, ho.deleted, ho.holders]
  · exact .setComplist hobj (fun hr => absurd hr hraw) (fun _ => ho.creator)
  · intro ops he
    obtain rfl := Option.some.inj he
    trivial
  · exact hset.setComplist hobj fun hr => absurd hr hraw

theorem Core.removeId (hc : s.Core) (i : ListId) :
    Core { s with idr := Function.update s.idr i none } :=
  { hc with idr := fun j b hj => hc.idr j b (KernelList.of_update_none hj).2 }

theorem Evolves.removeId (i : ListId) :
    Evolves s { s with idr := Function.update s.idr i none } t :=
  { Evolves.refl s t with idr := fun _ _ hj => Or.inl (KernelList.of_update_none hj).2 }

theorem good_idrRemove_undo (hc : s.Core) (hset : s.Settled t) (h : s.Meets t (.made a))
    (o : ComplistObj) (hobj : s.complist a = some o) :
    Good s { s with idr := Function.update s.idr o.id none } t (.idrRemove .undo a)
      (some [.idrUnlockRemove .undo a]) := by
  obtain ⟨o', ho, -, hid⟩ := h
  obtain rfl := Option.some.inj (hobj.symm.trans ho.object)
  refine ⟨hc.removeId _, .removeId _, fun ops he => ?_, fun _ => hset⟩
  obtain rfl := Option.some.inj he
  refine headOk_meets ⟨o, { ho with }, fun j hj => ?_⟩ rfl
  obtain ⟨hne, hj⟩ := KernelList.of_update_none hj
  exact hne (hid j hj)

theorem good_idrRemove_release (hc : s.Core) (p : Putting)
    (hset : (Op.idrRemove (.release p) a).detachedDuring = false → s.Settled t)
    (h : s.Meets t (.releasing a)) (o : ComplistObj) (hobj : s.complist a = some o) :
    Good s { s with idr := Function.update s.idr o.id none } t (.idrRemove (.release p) a)
      (some [.idrUnlockRemove (.release p) a]) := by
  obtain ⟨o', ho⟩ := h
  obtain rfl := Option.some.inj (hobj.symm.trans ho.object)
  refine ⟨hc.removeId _, .removeId _, fun ops he => ?_, hset⟩
  obtain rfl := Option.some.inj he
  refine headOk_meets ⟨o, { ho with }, fun j hj => ?_⟩ rfl
  obtain ⟨hne, hj⟩ := KernelList.of_update_none hj
  obtain ⟨x, hx, -, hxj⟩ := hc.idr j a hj
  obtain rfl := Option.some.inj (hobj.symm.trans hx)
  exact hne (hxj ho.ready).symm

/-- Nobody else knows a list whose creator has not returned. -/
theorem good_freeUmsComplist (hc : s.Core) (hset : s.Settled t) (h : s.Meets t (.blank a)) :
    Good s { s with complist := Function.update s.complist a none } t (.freeUmsComplist a)
      (some []) := by
  obtain ⟨o, ho, hid⟩ := h
  have hne (b : Addr) (x : ComplistObj) (hx : s.complist b = some x)
      (hor : x.ready = true ∨ x.creator ≠ t) : b ≠ a := by
    rintro rfl
    obtain rfl := Option.some.inj (ho.object.symm.trans hx)
    rcases hor with hr | hcr
    · simp [ho.ready] at hr
    · exact hcr ho.creator
  refine ⟨?_, ?_, ?_, fun _ => ?_⟩
  · refine { hc with idr := fun i b hi => ?_, count := ?_, waits := ?_, fresh := fun b hb => ?_ }
    · obtain ⟨x, hx, hrest⟩ := hc.idr i b hi
      have hba : b ≠ a := by
        rintro rfl
        exact hid i hi
      exact ⟨x, (Function.update_of_ne hba ..).trans hx, hrest⟩
    · exact fun b x hx => hc.count b x (KernelList.of_update_none hx).2
    · exact fun b x hx => hc.waits b x (KernelList.of_update_none hx).2
    · refine ⟨?_, (hc.fresh b hb).2⟩
      by_cases hba : b = a
      · simp [hba]
      · exact (Function.update_of_ne hba ..).trans (hc.fresh b hb).1
  · exact { Evolves.refl s t with
      ready := fun b x hx hr => ⟨x, (Function.update_of_ne (hne b x hx (Or.inl hr)) ..).trans hx,
        hr, fun _ h _ => h, fun h => ⟨h, rfl⟩⟩
      raw := fun b x hx _ hcr => (Function.update_of_ne (hne b x hx (Or.inr hcr)) ..).trans hx }
  · intro ops he
    obtain rfl := Option.some.inj he
    trivial
  · exact hset.mono rfl fun b x hx hr hw =>
      ⟨x, (Function.update_of_ne (hne b x hx (Or.inl hr)) ..).trans hx, hr, hw⟩

/-- A reference to a list whose count is positive is taken or given back. -/
theorem Core.setCount (hc : s.Core) {o o' : ComplistObj} (ho : s.complist a = some o)
    (hr : o.ready = true) (hid : o'.id = o.id) (hpos : 1 ≤ o.refcount)
    (hcount : o'.refcount = (if o'.deleted then 0 else 1) + (o'.holders.length : ℤ)) :
    (s.setComplist a o').Core := by
  refine hc.setComplist ho (fun i hi _ => ?_) (fun _ => hcount) (fun hw => ?_)
  · obtain ⟨x, hx, -, hxi⟩ := hc.idr i a hi
    obtain rfl := Option.some.inj (ho.symm.trans hx)
    exact hid.trans (hxi hr)
  · have hzero := (hc.waits a o ho hw).2
    omega

theorem Evolves.setCount {o o' : ComplistObj} (ho : s.complist a = some o) (hr : o.ready = true)
    (hr' : o'.ready = true) (hpos : 1 ≤ o.refcount)
    (hkeep : ∀ c ∈ o.holders, c.task ≠ t → c ∈ o'.holders) :
    Evolves s (s.setComplist a o') t := by
  refine .setComplist ho (fun _ => ⟨hr', hkeep, fun hzero => ?_⟩) (fun hraw => ?_)
  · omega
  · rw [hr] at hraw
    cases hraw

theorem Core.not_waiting (hc : s.Core) {o : ComplistObj} (ho : s.complist a = some o)
    (hpos : 1 ≤ o.refcount) : s.rcu.waits (.complist a) = none := by
  by_contra hw
  have hzero := (hc.waits a o ho hw).2
  omega

theorem good_getUmsComplist (hc : s.Core) (hset : s.Settled t) (e : Entering)
    (hop : s.OpOk t (.getUmsComplist e a)) (o : ComplistObj) (ho : s.complist a = some o)
    (hpos : 1 ≤ o.refcount) :
    Good s (s.setComplist a { o with refcount := o.refcount + 1, holders := e.ref t :: o.holders })
      t (.getUmsComplist e a) (some [.enterUnlock e a]) := by
  obtain ⟨⟨x, hx, hr, -⟩, hq⟩ := hop
  obtain rfl := Option.some.inj (ho.symm.trans hx)
  have hcount := hc.count a o ho hr
  refine ⟨hc.setCount ho hr rfl hpos ?_, .setCount ho hr hr hpos ?_, fun ops he => ?_, fun _ => ?_⟩
  · simp only [List.length_cons]
    omega
  · exact fun c hmem _ => List.mem_cons_of_mem _ hmem
  · obtain rfl := Option.some.inj he
    refine headOk_one ⟨⟨_, Function.update_self .., hr, ?_⟩, fun q he => hq q ?_⟩
    · cases e <;> exact List.mem_cons_self
    · cases e <;> exact he
  · exact hset.setComplist ho fun hr hmem => ⟨hr, List.mem_cons_of_mem _ hmem⟩

/-- The list after a delete or the end of a worker, and how many references it had. -/
theorem Core.put (hc : s.Core) (p : Putting) {o : ComplistObj} (ho : s.complist a = some o)
    (hr : o.ready = true) (hp : (p = .delete ∧ o.deleted = false) ∨
      (p = .worker ∧ .worker t ∈ o.holders)) :
    1 ≤ o.refcount ∧ (p.apply t o).refcount = o.refcount - 1 ∧ (p.apply t o).ready = true ∧
      (p.apply t o).id = o.id ∧ (p.apply t o).refcount =
        (if (p.apply t o).deleted then 0 else 1) + ((p.apply t o).holders.length : ℤ) ∧
      ∀ c ∈ o.holders, c.task ≠ t → c ∈ (p.apply t o).holders := by
  have hcount := hc.count a o ho hr
  rcases hp with ⟨rfl, hdel⟩ | ⟨rfl, hmem⟩
  · simp only [hdel, Bool.false_eq_true, if_false] at hcount
    refine ⟨by omega, rfl, hr, rfl, ?_, fun c hcm _ => hcm⟩
    simp only [Putting.apply, if_true]
    omega
  · have hlen := List.length_erase_of_mem hmem
    have hlpos : 0 < o.holders.length := List.length_pos_of_mem hmem
    refine ⟨?_, rfl, hr, rfl, ?_, fun c hcm hne => ?_⟩
    · split at hcount <;> omega
    · change o.refcount - 1 = (if o.deleted then 0 else 1) +
        ((o.holders.erase (.worker t)).length : ℤ)
      rw [hcount, hlen]
      omega
    · refine (List.mem_erase_of_ne ?_).mpr hcm
      rintro rfl
      exact hne rfl

theorem headOk_putNext (p : Putting) (hp : p = .delete ∨ p = .worker) : s.HeadOk t p.next := by
  rcases hp with rfl | rfl
  · trivial
  · exact headOk_cons (opOk_of_meets trivial rfl) rfl

theorem good_putUmsComplist (hc : s.Core) (p : Putting)
    (hset : (Op.putUmsComplist p a).detachedDuring = false → s.Settled t) (o : ComplistObj)
    (ho : s.complist a = some o) (hr : o.ready = true)
    (hp : (p = .delete ∧ o.deleted = false) ∨ (p = .worker ∧ .worker t ∈ o.holders)) :
    Good s (if o.refcount - 1 = 0 then
        (s.setComplist a { p.apply t o with releaser := some t }, some (.wakeUpAll p a :: p.next))
      else (s.setComplist a (p.apply t o), some p.next)).1 t (.putUmsComplist p a)
      (if o.refcount - 1 = 0 then
        (s.setComplist a { p.apply t o with releaser := some t }, some (.wakeUpAll p a :: p.next))
      else (s.setComplist a (p.apply t o), some p.next)).2 := by
  obtain ⟨hpos, hdec, hr', hid, hcount, hkeep⟩ := hc.put p ho hr hp
  have hcases : p = .delete ∨ p = .worker := hp.imp And.left And.left
  have hown (o' : ComplistObj) (hh : o'.holders = (p.apply t o).holders) (hro : o'.ready = true)
      (hd : (Op.putUmsComplist p a).detachedDuring = false) : (s.setComplist a o').Settled t := by
    refine (hset hd).setComplist ho fun _ hmem => ⟨hro, ?_⟩
    rcases hcases with rfl | rfl
    · exact hh ▸ hmem
    · cases hd
  split
  · rename_i hlast
    refine ⟨hc.setCount ho hr hid hpos hcount, .setCount ho hr hr' hpos hkeep, fun ops he => ?_,
      hown _ rfl hr'⟩
    obtain rfl := Option.some.inj he
    refine headOk_cons (opOk_of_meets
      ⟨_, ⟨Function.update_self .., hr', hdec.trans hlast, rfl, hc.not_waiting ho hpos⟩⟩ rfl) ?_
    rcases hcases with rfl | rfl <;> rfl
  · refine ⟨hc.setCount ho hr hid hpos hcount, .setCount ho hr hr' hpos hkeep, fun ops he => ?_,
      hown _ rfl hr'⟩
    obtain rfl := Option.some.inj he
    exact headOk_putNext p hcases

theorem good_callRcu (hc : s.Core) (p : Putting)
    (hset : (Op.callRcu p a).detachedDuring = false → s.Settled t)
    (h : s.Meets t (.removed a)) :
    Good s { s with rcu := s.rcu.callRcu (.complist a) } t (.callRcu p a) (some []) := by
  obtain ⟨o, ho, hid⟩ := h
  have hother (b : Addr) (hb : b ≠ a) :
      (s.rcu.callRcu (.complist a)).waits (.complist b) = s.rcu.waits (.complist b) :=
    Rcu.callRcu_waits_of_ne (by simpa using hb)
  refine ⟨?_, ?_, ?_, fun hd => hset hd⟩
  · refine { hc with idr := fun i b hi => ?_, waits := ?_, fresh := fun b hb => ?_, kept := ?_ }
    · -- the list has been removed from the table, so no id leads to it
      have hba : b ≠ a := by
        rintro rfl
        exact hid i hi
      obtain ⟨x, hx, hw, hxi⟩ := hc.idr i b hi
      exact ⟨x, hx, (hother b hba).trans hw, hxi⟩
    · intro b x hx hw
      by_cases hba : b = a
      · subst hba
        obtain rfl := Option.some.inj (ho.object.symm.trans hx)
        exact ⟨ho.ready, ho.refcount⟩
      · refine hc.waits b x hx ?_
        rw [← hother b hba]
        exact hw
    · have hba : b ≠ a := by
        rintro rfl
        exact Int.not_le.mpr (hc.lt_next ho.object) hb
      exact ⟨(hc.fresh b hb).1, (hother b hba).trans (hc.fresh b hb).2⟩
    · intro q
      exact (Rcu.callRcu_waits_of_ne (by simp)).trans (hc.kept q)
  · refine { Evolves.refl s t with shields := ?_, waits := fun b x hx hw => ?_ }
    · exact fun u x _ hs => hs.callRcu _
    · by_cases hba : b = a
      · subst hba
        obtain rfl := Option.some.inj (ho.object.symm.trans hx)
        exact Or.inr ⟨ho.ready, ho.releaser⟩
      · exact Or.inl ((hother b hba).trans hw)
  · intro ops he
    obtain rfl := Option.some.inj he
    trivial

end Kernel

end LinuxUms
