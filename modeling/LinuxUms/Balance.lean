import LinuxUms.AtomicSections

/-! Every handler leaves the read sections that it has entered and releases the locks that it has
taken. A thread that is inside a critical section holds the lock that its next operation belongs to,
and no other. -/
namespace LinuxUms

open Transition

namespace Op

/-- The lock that an operation is done under. -/
def holds : Op → Option SpinLock
  | idrAlloc _ | idrUnlockAlloc _ _ | idrRemove _ _ | idrUnlockRemove _ _ => some .idr
  | addLink _ a _ | addUnlock _ a => some (.complist a)
  | eventAdd _ q | eventUnlock _ q | dropEvents q | destroyUnlock q => some (.scheduler q)
  | takeTest d | takeUnlockWait d | takeFirst d | takeUnlock d _ => some d.lock
  | _ => none

theorem holds_of_nesting (op : Op) (h : op.nesting.2 = 0) : op.holds = none := by
  cases op with
  | idrAlloc _ | idrUnlockAlloc _ _ | dropEvents _ | destroyUnlock _ | takeTest _
  | takeUnlockWait _ | takeFirst _ | takeUnlock _ _ => cases h
  | idrRemove m _ | idrUnlockRemove m _ =>
    cases m with
    | undo => cases h
    | release p => cases p <;> cases h
  | addLink k _ _ | addUnlock k _ => cases k <;> cases h
  | eventAdd k _ | eventUnlock k _ => cases k <;> cases h
  | _ => rfl

theorem nestingAfter_snd (op : Op) : op.nestingAfter.2 = 0 := by
  unfold nestingAfter
  split
  · unfold Find.nestingAfter
    split <;> rfl
  · unfold Find.nestingAfter
    split <;> rfl
  all_goals rfl

/-- The operations that end a read section. -/
theorem nesting_of_rcuStep (op : Op) (h : op.rcuStep < 0) : op.nesting.1 = 1 := by
  unfold rcuStep at h
  split at h
  · exact absurd h (by decide)
  · rfl
  · rfl
  · exact absurd h (by decide)

end Op

/-- The lock that a thread is under when its code goes on with `ops`. -/
def lockOf (ops : List Op) : Option SpinLock := ops.head?.bind Op.holds

namespace Kernel

variable {s s' : Kernel} {t : Pid} {luck : OpLuck} {op : Op} {r : Option (List Op)}

/-- What an operation of `t` leaves of the locks: the others have what they had, and `t` has what
its code goes on under. -/
structure Passes (s s' : Kernel) (t : Pid) (r : Option (List Op)) : Prop where
  others : ∀ u, u ≠ t → ∀ l, s'.held l = some u ↔ s.held l = some u
  self : ∀ ops, r = some ops → ∀ l, s'.held l = some t ↔ lockOf ops = some l

/-- An operation that leaves the locks alone. -/
theorem Passes.same (hown : ∀ l, s.held l = some t ↔ op.holds = some l) (hs : s'.held = s.held)
    (hnext : r = none ∨ r.map lockOf = some op.holds) : Passes s s' t r where
  others u _ l := by rw [hs]
  self ops hr l := by
    subst hr
    rcases hnext with hnone | hsame
    · cases hnone
    · rw [hs, hown l, Option.some.inj hsame]

theorem Passes.dies (hown : ∀ l, s.held l = some t ↔ op.holds = some l) : Passes s s t none :=
  .same hown rfl (Or.inl rfl)

theorem Passes.to (hown : ∀ l, s.held l = some t ↔ op.holds = some l) {ops : List Op}
    (hs : s'.held = s.held) (hnext : lockOf ops = op.holds) : Passes s s' t (some ops) :=
  .same hown hs (Or.inr (congrArg some hnext))

theorem Passes.useComplist {a : Addr} {f : ComplistObj → Outcome}
    (hown : ∀ l, s.held l = some t ↔ op.holds = some l)
    (hf : ∀ o, (f o).1.held = s.held ∧ ((f o).2 = none ∨ (f o).2.map lockOf = some op.holds))
    (h : s.useComplist a f = some (s', r)) : Passes s s' t r := by
  rcases useComplist_some h with ⟨-, he⟩ | ⟨o, -, he⟩
  · obtain ⟨rfl, rfl⟩ := Prod.mk.inj he
    exact .dies hown
  · obtain ⟨hs, hnext⟩ := hf o
    rw [← he] at hs hnext
    exact .same hown hs hnext

theorem Passes.useScheduler {q : Addr} {f : SchedulerObj → Outcome}
    (hown : ∀ l, s.held l = some t ↔ op.holds = some l)
    (hf : ∀ y, (f y).1.held = s.held ∧ ((f y).2 = none ∨ (f y).2.map lockOf = some op.holds))
    (h : s.useScheduler q f = some (s', r)) : Passes s s' t r := by
  rcases useScheduler_some h with ⟨-, he⟩ | ⟨y, -, he⟩
  · obtain ⟨rfl, rfl⟩ := Prod.mk.inj he
    exact .dies hown
  · obtain ⟨hs, hnext⟩ := hf y
    rw [← he] at hs hnext
    exact .same hown hs hnext

/-- A lock is taken only while nobody has it. -/
theorem Passes.spinLock {l : SpinLock} {ops : List Op}
    (hown : ∀ l, s.held l = some t ↔ op.holds = some l) (hno : op.holds = none)
    (hnext : lockOf ops = some l) (h : s.spinLock t l ops = some (s', r)) : Passes s s' t r := by
  unfold Kernel.spinLock at h
  split at h
  · obtain ⟨rfl, rfl⟩ := Prod.mk.inj (Option.some.inj h)
    exact .dies hown
  split at h
  · rename_i hfree
    obtain ⟨rfl, rfl⟩ := Prod.mk.inj (Option.some.inj h)
    refine ⟨fun u hu k => ?_, fun xs hxs k => ?_⟩
    · by_cases hk : k = l
      · subst hk
        simp [hfree, Ne.symm hu]
      · simp [Function.update_of_ne hk]
    · obtain rfl := Option.some.inj hxs
      by_cases hk : k = l
      · subst hk
        simp [hnext]
      · simp [Function.update_of_ne hk, hown k, hno, hnext, Ne.symm hk]
  · cases h

/-- A lock is released by the thread that has it. -/
theorem Passes.spinUnlock {l : SpinLock} {ops : List Op}
    (hown : ∀ l, s.held l = some t ↔ op.holds = some l) (hl : op.holds = some l)
    (hnext : lockOf ops = none) (h : s.spinUnlock l ops = some (s', r)) : Passes s s' t r := by
  rcases spinUnlock_some h with ⟨-, he⟩ | he <;> obtain ⟨rfl, rfl⟩ := Prod.mk.inj he
  · exact .dies hown
  · have hheld : s.held l = some t := (hown l).mpr hl
    refine ⟨fun u hu k => ?_, fun xs hxs k => ?_⟩
    · by_cases hk : k = l
      · subst hk
        simp [hheld, Ne.symm hu]
      · simp [Function.update_of_ne hk]
    · obtain rfl := Option.some.inj hxs
      by_cases hk : k = l
      · subst hk
        simp [hnext]
      · simp [Function.update_of_ne hk, hown k, hl, hnext, Ne.symm hk]

theorem lockOf_lookup (f : Find) : lockOf (s.lookup t f) = none := by
  cases f with
  | complist u i =>
    rcases u with - | - | - | - <;> cases hi : s.idr i <;> simp only [lookup, hi] <;> rfl
  | context c => cases hc : s.workers c <;> simp only [lookup, hc] <;> rfl
  | events => cases hq : s.schedulers t <;> simp only [lookup, hq] <;> rfl
  | exec w =>
    cases hw : s.workers w <;> cases hq : s.schedulers t <;> simp only [lookup, hw, hq] <;> rfl
  | yield => cases hw : s.workers t <;> simp only [lookup, hw] <;> rfl
  | finish => cases hw : s.workers t <;> simp only [lookup, hw] <;> rfl

theorem exec_passes (op : Op) (hown : ∀ l, s.held l = some t ↔ op.holds = some l)
    (h : s.exec t luck op = some (s', r)) : Passes s s' t r := by
  cases op with
  | rcuReadLock _ | rcuReadUnlock | schedule | copyNext | idrPreload _ | freeUmsComplist _
  | removeWorker _ | removeScheduler _ | procRemove _ | callRcu _ _ =>
    obtain ⟨rfl, rfl⟩ := Prod.mk.inj (Option.some.inj h)
    exact .to hown (by rfl) (by rfl)
  | enterUnlock e a =>
    obtain ⟨rfl, rfl⟩ := Prod.mk.inj (Option.some.inj h)
    cases e <;> exact .to hown (by rfl) (by rfl)
  | find f =>
    obtain ⟨rfl, rfl⟩ := Prod.mk.inj (Option.some.inj h)
    exact .to hown (by rfl) (lockOf_lookup f)
  | findScheduler a =>
    obtain ⟨rfl, rfl⟩ := Prod.mk.inj (Option.some.inj h)
    cases s.schedulers t <;> exact .to hown (by rfl) (by rfl)
  | putUnassigned e =>
    obtain ⟨rfl, rfl⟩ := Prod.mk.inj (Option.some.inj h)
    cases luck.stray with
    | none => exact .dies hown
    | some a => exact .to hown (by rfl) (by rfl)
  | copyArgs _ _ | allocContext _ _ | procRegister _ _ | copyListId _ | copyContextId _
  | copyContext _ _ | copyEvent _ =>
    obtain ⟨rfl, rfl⟩ := Prod.mk.inj (Option.some.inj h)
    split <;> exact .to hown (by rfl) (by rfl)
  -- the locks
  | idrLockAlloc _ | takeLock _ | destroyLock _ | idrLockRemove _ _ | addLock _ _ _
  | eventLock _ _ => exact .spinLock hown rfl (by rfl) h
  | idrUnlockAlloc _ _ | takeUnlockWait _ | destroyUnlock _ | addUnlock _ _ | eventUnlock _ _ =>
    exact .spinUnlock hown rfl (by rfl) h
  | idrUnlockRemove m a =>
    cases m <;> exact .spinUnlock hown rfl (by rfl) h
  | takeUnlock d cs =>
    cases d with
    | contexts a q => cases cs <;> exact .spinUnlock hown rfl (by rfl) h
    | events q => exact .spinUnlock hown rfl (by rfl) h
  | umsComplistInit _ _ | idrRemove _ _ | wakeUpAll _ _ | getUmsComplist _ _ | addLink _ _ _ =>
    exact .useComplist hown (fun o => ⟨by rfl, Or.inr (by rfl)⟩) h
  | copyId a =>
    refine .useComplist hown (fun o => ?_) h
    split <;> exact ⟨rfl, Or.inr rfl⟩
  | putUmsComplist p a =>
    refine .useComplist hown (fun o => ?_) h
    split
    · exact ⟨rfl, Or.inr rfl⟩
    · cases p <;> exact ⟨rfl, Or.inr rfl⟩
  | addWake k a =>
    refine .useComplist hown (fun o => ?_) h
    cases k <;> exact ⟨rfl, Or.inr rfl⟩
  | eventWake k q =>
    refine .useScheduler hown (fun y => ?_) h
    cases k <;> exact ⟨rfl, Or.inr rfl⟩
  | allocStartup a q | symlinkFirst a q c cs =>
    refine .useScheduler hown (fun y => ⟨by rfl, Or.inr ?_⟩) h
    dsimp only [Option.map_some]
    split <;> rfl
  | symlinkRest a q c cs =>
    cases cs with
    | nil =>
      obtain ⟨rfl, rfl⟩ := Prod.mk.inj (Option.some.inj h)
      exact .to hown (by rfl) (by rfl)
    | cons d ds =>
      exact .useScheduler hown (fun y => ⟨by rfl, Or.inr (by rfl)⟩) h
  | eventAdd _ _ | removeLink _ _ | switchTo _ _ | switchBack _ _ | wakeUpContext _ _
  | dropEvents _ =>
    exact .useScheduler hown (fun y => ⟨by rfl, Or.inr (by rfl)⟩) h
  | takeFirst d =>
    cases d with
    | contexts a q =>
      refine .useComplist hown (fun o => ?_) h
      split
      · exact ⟨rfl, Or.inl rfl⟩
      · exact ⟨rfl, Or.inr rfl⟩
    | events q =>
      exact .useScheduler hown (fun y => ⟨by rfl, Or.inr (by rfl)⟩) h
  | takeTest d | takeWait d =>
    simp only [exec] at h
    split at h <;> obtain ⟨rfl, rfl⟩ := Prod.mk.inj (Option.some.inj h)
    · exact .dies hown
    · split <;> exact .to hown (by rfl) (by rfl)
  | takeBlocked d =>
    simp only [exec] at h
    split at h
    · obtain ⟨rfl, rfl⟩ := Prod.mk.inj (Option.some.inj h)
      exact .dies hown
    split at h
    · obtain ⟨rfl, rfl⟩ := Prod.mk.inj (Option.some.inj h)
      exact .to hown (by rfl) (by rfl)
    split at h
    · cases h
    · obtain ⟨rfl, rfl⟩ := Prod.mk.inj (Option.some.inj h)
      exact .to hown (by rfl) (by rfl)
  | allocUmsComplist =>
    simp only [exec] at h
    split at h <;> obtain ⟨rfl, rfl⟩ := Prod.mk.inj (Option.some.inj h) <;>
      exact .to hown (by rfl) (by rfl)
  | idrAlloc a =>
    simp only [exec] at h
    split at h
    · obtain ⟨rfl, rfl⟩ := Prod.mk.inj (Option.some.inj h)
      exact .to hown (by rfl) (by rfl)
    split at h
    · obtain ⟨rfl, rfl⟩ := Prod.mk.inj (Option.some.inj h)
      exact .to hown (by rfl) (by rfl)
    · cases h
  | insertContext r i =>
    simp only [exec] at h
    split at h
    · cases r with
      | worker =>
        simp only [insertContext] at h
        split at h <;> obtain ⟨rfl, rfl⟩ := Prod.mk.inj (Option.some.inj h) <;>
          exact .to hown (by rfl) (by rfl)
      | scheduler =>
        simp only [insertContext] at h
        split at h <;> obtain ⟨rfl, rfl⟩ := Prod.mk.inj (Option.some.inj h) <;>
          exact .to hown (by rfl) (by rfl)
    · obtain ⟨rfl, rfl⟩ := Prod.mk.inj (Option.some.inj h)
      exact .to hown (by rfl) (by rfl)
  | suspendWorker a =>
    simp only [exec] at h
    split at h <;> obtain ⟨rfl, rfl⟩ := Prod.mk.inj (Option.some.inj h)
    · exact .dies hown
    · exact .to hown (by rfl) (by rfl)
  | allocYieldEvent =>
    simp only [exec] at h
    split at h
    · obtain ⟨rfl, rfl⟩ := Prod.mk.inj (Option.some.inj h)
      exact .to hown (by rfl) (by rfl)
    split at h <;> obtain ⟨rfl, rfl⟩ := Prod.mk.inj (Option.some.inj h)
    · exact .to hown (by rfl) (by rfl)
    · exact .dies hown
  | allocEndEvent =>
    simp only [exec] at h
    split at h
    · obtain ⟨rfl, rfl⟩ := Prod.mk.inj (Option.some.inj h)
      exact .to hown (by rfl) (by rfl)
    split at h <;> obtain ⟨rfl, rfl⟩ := Prod.mk.inj (Option.some.inj h)
    · exact .to hown (by rfl) (by rfl)
    · split
      · exact .to hown (by rfl) (by rfl)
      · exact .dies hown
    · exact .dies hown

end Kernel

/-- A thread that is alive is in the sections and under the locks that its code says. -/
structure Task.Exact (x : Task) : Prop where
  dead : x.dead = true → x.rest = []
  levels : x.dead = false →
    ∃ b, flow Op.before Op.after ((x.rcu, x.spin), b) x.rest = some ((0, 0), false)

theorem Task.Exact.alive {x : Task} (h : x.Exact) {op : Op} {tail : List Op}
    (hrest : x.rest = op :: tail) : x.dead = false := by
  by_contra hdead
  rw [h.dead (by simpa using hdead)] at hrest
  cases hrest

theorem Task.Exact.call {x : Task} (h : x.Exact) (hrest : x.rest = []) (hdead : x.dead = false)
    (r : Request) : Task.Exact { x with rest := r.code } := by
  refine ⟨fun hd => ?_, fun _ => ⟨false, ?_⟩⟩
  · rw [hdead] at hd
    cases hd
  · obtain ⟨b, hflow⟩ := h.levels hdead
    rw [hrest] at hflow
    obtain ⟨hlevel, -⟩ := Prod.mk.inj (Option.some.inj hflow)
    simp only [hlevel]
    exact r.code_flow

/-- One operation: the levels of its thread are those of the operation, and behind it those of what
comes next. -/
theorem Task.Exact.after {x : Task} (h : x.Exact) {s s' : Kernel} {t : Pid} {luck : OpLuck}
    {op : Op} {tail : List Op} {r : Option (List Op)} (hrest : x.rest = op :: tail)
    (hstartup : op.allocatesStartup = true → luck.ok = true)
    (hexec : s.exec t luck op = some (s', r)) : (x.after op tail r).Exact := by
  cases r with
  | none => exact ⟨fun _ => rfl, fun hd => by cases hd⟩
  | some ops =>
    have halive := h.alive hrest
    refine ⟨fun hd => ?_, fun _ => ⟨op.detachedDuring, ?_⟩⟩
    · change x.dead = true at hd
      rw [halive] at hd
      cases hd
    · obtain ⟨b, hflow⟩ := h.levels halive
      rw [hrest] at hflow
      exact Task.after_flow hflow hstartup hexec

/-- What stands behind an operation is not under a lock. -/
theorem Task.Exact.lockOf_append {x : Task} (h : x.Exact) {op : Op} {tail : List Op}
    (hrest : x.rest = op :: tail) (ops : List Op) : lockOf (ops ++ tail) = lockOf ops := by
  cases ops with
  | cons y ys => rfl
  | nil =>
    obtain ⟨b, hflow⟩ := h.levels (h.alive hrest)
    rw [hrest] at hflow
    have htail := (flow_cons.mp hflow).2
    cases tail with
    | nil => rfl
    | cons y ys =>
      obtain ⟨hnesting, -⟩ := Prod.mk.inj (flow_cons.mp htail).1
      have hspin : y.nesting.2 = 0 :=
        (congrArg Prod.snd hnesting).symm.trans op.nestingAfter_snd
      exact y.holds_of_nesting hspin

theorem Request.lockOf_code (r : Request) : lockOf r.code = none := by
  cases r <;> rfl

namespace Kernel

variable {s s' : Kernel} {t : Pid}

/-- A scheduler gets its startup event. -/
def GetsStartup (s : Kernel) : KernelAct → Prop
  | .run t luck => ∀ op ∈ (s.task t).rest.head?, op.allocatesStartup = true → luck.ok = true
  | _ => True

instance (s : Kernel) : DecidablePred s.GetsStartup
  | .run t _ => inferInstanceAs (Decidable (∀ op ∈ (s.task t).rest.head?, _ → _))
  | .call _ _ | .free _ => inferInstanceAs (Decidable True)

structure Balanced (s : Kernel) : Prop where
  exact : ∀ t, (s.task t).Exact
  locks : ∀ t, (s.task t).dead = false →
    ∀ l, s.held l = some t ↔ lockOf (s.task t).rest = some l

theorem balanced_init : init.Balanced :=
  ⟨fun _ => ⟨fun _ => rfl, fun _ => ⟨false, rfl⟩⟩, fun _ _ _ => by simp [init, lockOf]⟩

theorem Balanced.call (hi : s.Balanced) (r : Request) (hrest : (s.task t).rest = [])
    (hdead : (s.task t).dead = false) :
    Balanced { s with task := Function.update s.task t { s.task t with rest := r.code } } := by
  refine ⟨fun u => ?_, fun u hd l => ?_⟩
  · by_cases hut : u = t
    · subst hut
      simp only [Function.update_self]
      exact (hi.exact u).call hrest hdead r
    · simp only [Function.update_of_ne hut]
      exact hi.exact u
  · by_cases hut : u = t
    · subst hut
      simp only [Function.update_self]
      rw [r.lockOf_code, hi.locks u hdead l, hrest]
      rfl
    · simp only [Function.update_of_ne hut] at hd ⊢
      exact hi.locks u hd l

theorem Balanced.run (hi : s.Balanced) (luck : OpLuck) {op : Op} {tail : List Op}
    (hrest : (s.task t).rest = op :: tail)
    (hstartup : op.allocatesStartup = true → luck.ok = true) {m : Kernel} {r : Option (List Op)}
    (h : (if s.sleeps luck op then s.sleep t else s).exec t luck op = some (m, r)) :
    Balanced { m with task := Function.update s.task t ((s.task t).after op tail r) } := by
  have halive := (hi.exact t).alive hrest
  have hown (l : SpinLock) : s.held l = some t ↔ op.holds = some l := by
    rw [hi.locks t halive l, hrest]
    rfl
  have hpasses : Passes s m t r := by
    cases hs : s.sleeps luck op with
    | false =>
      rw [hs] at h
      exact exec_passes op hown h
    | true =>
      rw [hs] at h
      obtain ⟨hothers, hself⟩ := exec_passes (s := s.sleep t) op hown h
      exact ⟨hothers, hself⟩
  refine ⟨fun u => ?_, fun u hd l => ?_⟩
  · by_cases hut : u = t
    · subst hut
      simp only [Function.update_self]
      exact (hi.exact u).after hrest hstartup h
    · simp only [Function.update_of_ne hut]
      exact hi.exact u
  · by_cases hut : u = t
    · subst hut
      simp only [Function.update_self] at hd ⊢
      cases r with
      | none => cases hd
      | some ops =>
        change m.held l = some u ↔ lockOf (ops ++ tail) = some l
        rw [(hi.exact u).lockOf_append hrest ops]
        exact hpasses.self ops rfl l
    · simp only [Function.update_of_ne hut] at hd ⊢
      exact (hpasses.others u hut l).trans (hi.locks u hd l)

theorem Balanced.step (hi : s.Balanced) (act : KernelAct) (hok : s.GetsStartup act)
    (h : s.step act = some s') : s'.Balanced := by
  cases act with
  | call t r =>
    simp only [Kernel.step] at h
    split at h
    · rename_i hidle
      obtain rfl := Option.some.inj h
      exact hi.call r hidle.1 hidle.2
    · cases h
  | run t luck =>
    simp only [Kernel.step] at h
    split at h
    · cases h
    · rename_i op tail hrest
      obtain ⟨⟨m, r⟩, hexec, rfl⟩ := Option.map_eq_some_iff.mp h
      exact hi.run luck hrest (hok op (by simp [hrest])) hexec
  | free o =>
    simp only [Kernel.step] at h
    split at h
    · cases o <;> obtain rfl := Option.some.inj h <;> exact ⟨hi.exact, hi.locks⟩
    · cases h

/-- In every run in which schedulers get their startup events, a thread that comes to the end of a
read section is inside one, and a call that returns has left all sections and released all locks. -/
theorem sections_balanced (s : Kernel) (hr : Reach step GetsStartup init s) (t : Pid)
    (halive : (s.task t).dead = false) :
    (∀ op tail, (s.task t).rest = op :: tail → op.rcuStep < 0 → 0 < (s.task t).rcu) ∧
    ((s.task t).rest = [] →
      (s.task t).rcu = 0 ∧ (s.task t).spin = 0 ∧ ∀ l, s.held l ≠ some t) := by
  have hi : s.Balanced :=
    hr.invariant Balanced balanced_init (fun _ act _ hi hok h => hi.step act hok h)
  obtain ⟨b, hflow⟩ := (hi.exact t).levels halive
  constructor
  · intro op tail hrest hunlock
    rw [hrest] at hflow
    obtain ⟨hnesting, -⟩ := Prod.mk.inj (flow_cons.mp hflow).1
    have hrcu : (s.task t).rcu = op.nesting.1 := congrArg Prod.fst hnesting
    have hone := op.nesting_of_rcuStep hunlock
    omega
  · intro hrest
    rw [hrest] at hflow
    obtain ⟨hlevel, -⟩ := Prod.mk.inj (Option.some.inj hflow)
    obtain ⟨hrcu, hspin⟩ := Prod.mk.inj hlevel
    refine ⟨hrcu, hspin, fun l hl => ?_⟩
    rw [hi.locks t halive l, hrest] at hl
    cases hl

/-- Thread 1 makes list 1. -/
def oneList : List KernelAct := .call 1 .create :: List.replicate 7 (.run 1 {})

/-- Worker 5 enters with an unknown id. The pointer that was never assigned leads to list 1 by
chance, whose only reference is put, and the list is released before the call returns. -/
theorem sections_balanced_stray :
    ∃ s, Reach step GetsStartup init s ∧ (s.task 5).rest = [] ∧ (s.complist 0).isSome ∧
      s.idr 1 = none ∧ (s.task 5).rcu = 0 ∧ (s.task 5).spin = 0 ∧ ∀ l, s.held l ≠ some 5 := by
  obtain ⟨s, hr, halive, hrest, hlist, hid⟩ := Reach.exists_of_run step GetsStartup init
    (oneList ++ .call 5 (.enter .worker 9) ::
      List.replicate 16 (.run 5 { stray := some 0 }))
    (fun s => (s.task 5).dead = false ∧ (s.task 5).rest = [] ∧ (s.complist 0).isSome ∧
      s.idr 1 = none) (by decide +kernel)
  exact ⟨s, hr, hrest, hlist, hid, (sections_balanced s hr 5 halive).2 hrest⟩

/-- There is no memory for the startup event, and the error path unlocks again what is not locked.
The call returns with a nesting of -1. -/
theorem startup_failure_unlocks_twice :
    (∃ s, Reach step (fun _ _ => True) init s ∧
      (s.task 10).rest.head? = some .rcuReadUnlock ∧ (s.task 10).rcu = 0) ∧
    ∃ s, Reach step (fun _ _ => True) init s ∧ (s.task 10).dead = false ∧
      (s.task 10).rest = [] ∧ (s.task 10).rcu = -1 :=
  ⟨Reach.exists_of_run step (fun _ _ => True) init
      (oneList ++ .call 10 (.enter .scheduler 1) :: List.replicate 8 (.run 10 {}) ++
        [.run 10 { ok := false }]) _ (by decide +kernel),
    Reach.exists_of_run step (fun _ _ => True) init
      (oneList ++ .call 10 (.enter .scheduler 1) :: List.replicate 8 (.run 10 {}) ++
        .run 10 { ok := false } :: List.replicate 7 (.run 10 {})) _ (by decide +kernel)⟩

end Kernel

end LinuxUms
