import LinuxUms.FoundObjects

/-! Runs in which what was found is there until it is used no more. Threads may sleep inside their
read sections, but those that have found a list there only as schedulers attached to it. -/
namespace LinuxUms

open Transition

namespace Op

/-- An operation that may sleep does not look anything up, and one that uses a list that was looked
up is inside a read section. -/
theorem need_of_maySleep (op : Op) (h : op.maySleep = true) :
    op.need ≠ .reading ∧
      ∀ a, op.need = .found a → 0 < op.nesting.1 ∧ op.complist = some a := by
  cases op with
  | schedule | allocUmsComplist | idrPreload _ | idrAlloc _ | allocContext _ _ | procRegister _ _
  | allocStartup _ _ | allocYieldEvent | allocEndEvent | copyId _ | copyArgs _ _ | copyListId _
  | copyContextId _ | copyNext | copyEvent _ =>
    exact ⟨fun h => (by cases h), fun a h => (by cases h)⟩
  | takeWait d =>
    cases d with
    | contexts b q =>
      exact ⟨fun h => (by cases h), fun a h => ⟨Int.one_pos, congrArg some (Need.found.inj h)⟩⟩
    | events q => exact ⟨fun h => (by cases h), fun a h => (by cases h)⟩
  | symlinkFirst b _ _ _ | symlinkRest b _ _ _ | copyContext b _ =>
    exact ⟨fun h => (by cases h), fun a h => ⟨Int.one_pos, congrArg some (Need.found.inj h)⟩⟩
  | _ => cases h

end Op

namespace Kernel

variable {s s' : Kernel} {t u : Pid} {op : Op} {ops : List Op} {a q : Addr} {luck : OpLuck}

theorem maySleep_of_sleeps (h : s.sleeps luck op = true) : op.maySleep = true := by
  unfold sleeps at h
  split at h
  · rfl
  · exact (Bool.and_eq_true_iff.mp h).1

theorem startup_of_careful (h : s.careful luck op = true) (ha : op.allocatesStartup = true) :
    luck.ok = true := by
  cases op with
  | allocStartup _ _ => exact h
  | _ => cases ha

/-- What a thread needs does not depend on what the threads do next. -/
theorem taskOk_setTask (f : Pid → Task) (x : Task) (h : s.TaskOk t x) :
    TaskOk { s with task := f } t x := by
  rcases h with hdead | ⟨b, hflow, hset, hhead⟩
  · exact Or.inl hdead
  · exact Or.inr ⟨b, hflow, hset, headOk_of_eq (s := s) rfl rfl rfl (fun _ hq => hq) hhead⟩

theorem opOk_of_free (h : op.free = true) : s.OpOk t op := by
  cases op with
  | rcuReadUnlock | schedule | procRemove _ => exact opOk_of_meets trivial rfl
  | removeWorker p =>
    cases p with
    | worker => exact opOk_of_meets trivial rfl
    | delete | entering | scheduler _ => cases h
  | _ => cases h

/-- The operations that stand behind others need nothing. -/
theorem headOk_append (h : s.HeadOk t ops) (tail : List Op) (htail : ∀ x ∈ tail, x.free = true) :
    s.HeadOk t (ops ++ tail) := by
  cases ops with
  | nil =>
    cases tail with
    | nil => trivial
    | cons x tail =>
      exact ⟨opOk_of_free (htail x List.mem_cons_self),
        fun y hy => htail y (List.mem_cons_of_mem _ hy)⟩
  | cons x xs =>
    refine ⟨h.1, fun y hy => ?_⟩
    rcases List.mem_append.mp hy with hy | hy
    · exact h.2 y hy
    · exact htail y hy

theorem headOk_code (r : Request) : s.HeadOk t r.code := by
  cases r with
  | create | enter _ _ | dqcontext _ | next _ | exec _ | yield =>
    exact headOk_meets trivial rfl
  | delete _ | finish | dqevent => exact headOk_cons (opOk_of_meets trivial rfl) rfl

structure Inv (s : Kernel) : Prop where
  core : s.Core
  tasks : ∀ t, s.TaskOk t (s.task t)

theorem inv_init : init.Inv where
  core := {
    idr := fun _ _ h => by cases h
    count := fun _ _ h => by cases h
    waits := fun _ _ h => by cases h
    fresh := fun _ _ => ⟨rfl, rfl⟩
    schedulers := fun _ _ h => by cases h
    parents := fun _ _ _ h => by cases h
    kept := fun _ => rfl }
  tasks _ := by
    refine Or.inr ⟨false, rfl, fun _ w a hw => ?_, trivial⟩
    cases hw

/-- A careful step, in which a thread that sleeps inside a section is a scheduler attached to the
list that it has found there. -/
def Sheltered (s : Kernel) : KernelAct → Prop
  | .run t luck => ∀ op ∈ (s.task t).rest.head?, s.careful luck op = true ∧
      (s.sleeps luck op = true → 0 < (s.task t).rcu →
        ∀ a ∈ op.complist, ∃ o ∈ s.complist a, .scheduler t ∈ o.holders)
  | _ => True

instance (s : Kernel) : DecidablePred s.Sheltered
  | .run t _ => inferInstanceAs (Decidable (∀ op ∈ (s.task t).rest.head?, _ ∧ (_ → _ → _)))
  | .call _ _ | .free _ => inferInstanceAs (Decidable True)

theorem Inv.call (hi : s.Inv) (r : Request) (hrest : (s.task t).rest = [])
    (hdead : (s.task t).dead = false) :
    Inv { s with task := Function.update s.task t { s.task t with rest := r.code } } := by
  refine ⟨{ hi.core with }, fun u => ?_⟩
  by_cases hut : u = t
  · subst hut
    simp only [Function.update_self]
    refine taskOk_setTask _ _ ?_
    rcases hi.tasks u with ⟨hd, -⟩ | ⟨b, hflow, hset, -⟩
    · rw [hdead] at hd
      cases hd
    · rw [hrest] at hflow
      obtain ⟨hlevel, rfl⟩ := Prod.mk.inj (Option.some.inj hflow)
      refine Or.inr ⟨false, ?_, hset, headOk_code r⟩
      simp only [hlevel]
      exact r.code_flow
  · simp only [Function.update_of_ne hut]
    exact taskOk_setTask _ _ (hi.tasks u)

/-- A thread that sleeps in an operation still has what the operation needs. -/
theorem opOk_sleep (hop : s.OpOk t op) (hrcu : (s.task t).rcu = op.nesting.1)
    (hs : s.sleeps luck op = true) (hheld : 0 < (s.task t).rcu →
      ∀ a ∈ op.complist, ∃ o ∈ s.complist a, .scheduler t ∈ o.holders) :
    (s.sleep t).OpOk t op := by
  obtain ⟨hread, hfound⟩ := op.need_of_maySleep (maySleep_of_sleeps hs)
  refine ⟨meets_leave op.need hop.1 hread fun a ha => ?_, hop.2⟩
  obtain ⟨hpos, hlist⟩ := hfound a ha
  rw [← hrcu] at hpos
  obtain ⟨o, ho, hmem⟩ := hheld hpos a hlist
  exact ⟨o, ho, hmem⟩

/-- The operation of a thread, and the thread behind it. -/
theorem Inv.exec (hi : s.Inv) {tail : List Op} (hrest : (s.task t).rest = op :: tail)
    (hcareful : s.careful luck op = true) (hheld : s.sleeps luck op = true → 0 < (s.task t).rcu →
      ∀ a ∈ op.complist, ∃ o ∈ s.complist a, .scheduler t ∈ o.holders) {r : Option (List Op)}
    (h : (if s.sleeps luck op then s.sleep t else s).exec t luck op = some (s', r)) :
    s'.Core ∧ (∀ u, u ≠ t → s'.TaskOk u (s.task u)) ∧
      s'.TaskOk t ((s.task t).after op tail r) := by
  rcases hi.tasks t with ⟨-, hnil⟩ | ⟨b, hflow, hset, hhead⟩
  · rw [hrest] at hnil
    cases hnil
  rw [hrest] at hflow hhead
  obtain ⟨hnesting, rfl⟩ := Prod.mk.inj (flow_cons.mp hflow).1
  have hrcu : (s.task t).rcu = op.nesting.1 := congrArg Prod.fst hnesting
  -- a sleep changes what `t` reads, and nothing for the others
  obtain ⟨m, hm, hcore, hevolves, hop, hsettled, hcareful', hrcu'⟩ :
      ∃ m, (if s.sleeps luck op then s.sleep t else s) = m ∧ m.Core ∧ Evolves s m t ∧
        m.OpOk t op ∧ (op.detached = false → m.Settled t) ∧ m.careful luck op = true ∧
        (m.task t).rcu = op.nesting.1 := by
    cases hs : s.sleeps luck op with
    | false => exact ⟨s, rfl, hi.core, .refl s t, hhead.1, hset, hcareful, hrcu⟩
    | true =>
      exact ⟨s.sleep t, rfl, hi.core.leave, .leave, opOk_sleep hhead.1 hrcu hs (hheld hs), hset,
        hcareful, hrcu⟩
  rw [hm] at h
  have hgood := exec_good hcore hop hsettled hcareful' hrcu' h
  refine ⟨hgood.core, fun u hne => ?_, ?_⟩
  · exact hgood.evolves.taskOk hne _ (hevolves.taskOk hne _ (hi.tasks u))
  · cases r with
    | none => exact Or.inl ⟨rfl, rfl⟩
    | some ops =>
      exact Or.inr ⟨op.detachedDuring, Task.after_flow hflow (startup_of_careful hcareful) h,
        hgood.settled, headOk_append (hgood.next ops rfl) tail hhead.2⟩

/-- A callback that runs frees what nobody needs. -/
theorem meets_free (hc : s.Core) (he : s.rcu.Elapsed (.complist a)) (n : Need)
    (hn : s.Meets t n) :
    Meets { s with complist := Function.update s.complist a none } t n := by
  have hwaits : s.rcu.waits (.complist a) ≠ none := by
    rw [show s.rcu.waits (.complist a) = some [] from he]
    simp
  -- a list that waits for its callback has no holders
  have hholder (b : Addr) (o : ComplistObj) (c : ContextRef) (ho : s.complist b = some o)
      (hmem : c ∈ o.holders) : b ≠ a := by
    rintro rfl
    obtain ⟨hr, hzero⟩ := hc.waits b o ho hwaits
    have hcount := hc.count b o ho hr
    have hlen : 0 < o.holders.length := List.length_pos_of_mem hmem
    split at hcount <;> omega
  have hcreates (b : Addr) (o : ComplistObj) (ho : s.Creates t b o) :
      Creates { s with complist := Function.update s.complist a none } t b o := by
    have hba : b ≠ a := by
      rintro rfl
      exact hwaits ho.waits
    exact { ho with object := (Function.update_of_ne hba ..).trans ho.object }
  have hreleases (b : Addr) (o : ComplistObj) (ho : s.Releases t b o) :
      Releases { s with complist := Function.update s.complist a none } t b o := by
    have hba : b ≠ a := by
      rintro rfl
      exact hwaits ho.waits
    exact { ho with object := (Function.update_of_ne hba ..).trans ho.object }
  cases n with
  | nothing => trivial
  | reading => exact hn
  | found b =>
    obtain ⟨o, ho, hr, hkeep⟩ := hn
    have hba : b ≠ a := by
      rcases hkeep with hs | hmem
      · rintro rfl
        exact hs.not_elapsed he
      · exact hholder b o _ ho hmem
    exact ⟨o, (Function.update_of_ne hba ..).trans ho, hr, hkeep⟩
  | own r b =>
    obtain ⟨o, ho, hr, hmem⟩ := hn
    exact ⟨o, (Function.update_of_ne (hholder b o _ ho hmem) ..).trans ho, hr, hmem⟩
  | blank b =>
    obtain ⟨o, ho, hid⟩ := hn
    exact ⟨o, hcreates b o ho, hid⟩
  | listed b i =>
    obtain ⟨o, ho, hid⟩ := hn
    exact ⟨o, hcreates b o ho, hid⟩
  | made b =>
    obtain ⟨o, ho, hid⟩ := hn
    exact ⟨o, hcreates b o ho, hid⟩
  | releasing b =>
    obtain ⟨o, ho⟩ := hn
    exact ⟨o, hreleases b o ho⟩
  | removed b =>
    obtain ⟨o, ho, hid⟩ := hn
    exact ⟨o, hreleases b o ho, hid⟩
  | never => exact hn

theorem Core.free (hc : s.Core) (he : s.rcu.Elapsed (.complist a)) :
    Core { s with complist := Function.update s.complist a none } := by
  refine { hc with idr := fun i b hi => ?_, count := ?_, waits := ?_, fresh := fun b hb => ?_ }
  · obtain ⟨o, ho, hw, hid⟩ := hc.idr i b hi
    have hba : b ≠ a := by
      rintro rfl
      rw [show s.rcu.waits (.complist b) = some [] from he] at hw
      cases hw
    exact ⟨o, (Function.update_of_ne hba ..).trans ho, hw, hid⟩
  · exact fun b o ho => hc.count b o (KernelList.of_update_none ho).2
  · exact fun b o ho => hc.waits b o (KernelList.of_update_none ho).2
  · refine ⟨?_, (hc.fresh b hb).2⟩
    by_cases hba : b = a
    · simp [hba]
    · exact (Function.update_of_ne hba ..).trans (hc.fresh b hb).1

theorem Inv.free (hi : s.Inv) (he : s.rcu.Elapsed (.complist a)) :
    Inv { s with complist := Function.update s.complist a none } := by
  refine ⟨hi.core.free he, fun t => ?_⟩
  rcases hi.tasks t with hdead | ⟨b, hflow, hset, hhead⟩
  · exact Or.inl hdead
  · refine Or.inr ⟨b, hflow, fun hb w c hw hc => ?_, ?_⟩
    · exact meets_free hi.core he _ (hset hb w c hw hc)
    · revert hhead
      cases (s.task t).rest with
      | nil => exact id
      | cons op tail =>
        exact fun ⟨⟨hneed, hq⟩, hfree⟩ => ⟨⟨meets_free hi.core he _ hneed, hq⟩, hfree⟩

theorem Inv.step (hi : s.Inv) (act : KernelAct) (hok : s.Sheltered act)
    (h : s.step act = some s') : s'.Inv := by
  cases act with
  | call t r =>
    simp only [Kernel.step] at h
    split at h
    · rename_i hidle
      obtain rfl := Option.some.inj h
      exact hi.call r hidle.1 hidle.2
    · cases h
  | run t luck =>
    simp only [Kernel.step] at h
    split at h
    · cases h
    · rename_i op tail hrest
      obtain ⟨⟨m, r⟩, hexec, rfl⟩ := Option.map_eq_some_iff.mp h
      obtain ⟨hcareful, hheld⟩ := hok op (by simp [hrest])
      obtain ⟨hcore, hothers, hself⟩ := hi.exec hrest hcareful hheld hexec
      refine ⟨{ hcore with }, fun u => ?_⟩
      by_cases hut : u = t
      · subst hut
        simp only [Function.update_self]
        exact taskOk_setTask _ _ hself
      · simp only [Function.update_of_ne hut]
        exact taskOk_setTask _ _ (hothers u hut)
  | free o =>
    simp only [Kernel.step] at h
    split at h
    · rename_i he
      cases o with
      | complist a =>
        obtain rfl := Option.some.inj h
        exact hi.free he
      | scheduler q =>
        -- no scheduler is given to `call_rcu` in such a run
        rw [Rcu.Elapsed, hi.core.kept q] at he
        cases he
    · cases h

end Kernel

/-- The list that is needed. -/
def Need.complist : Need → Option Addr
  | .found a | .own _ a | .blank a | .listed a _ | .made a | .releasing a | .removed a => some a
  | _ => none

/-- An operation needs the list that it is about. -/
theorem Op.need_complist (op : Op) (a : Addr) (h : op.complist = some a) :
    op.need.complist = some a ∨ op.need = .never := by
  cases op with
  | idrPreload _ | idrLockAlloc _ | idrAlloc _ | idrUnlockAlloc _ _ | umsComplistInit _ _ | copyId _
  | freeUmsComplist _ | wakeUpAll _ _ | callRcu _ _ | getUmsComplist _ _ | enterUnlock _ _
  | suspendWorker _ | allocStartup _ _ | findScheduler _ | symlinkFirst _ _ _ _
  | symlinkRest _ _ _ _ | copyContext _ _ | switchBack _ _ | wakeUpContext _ _ => exact Or.inl h
  | idrLockRemove m _ | idrRemove m _ | idrUnlockRemove m _ => cases m <;> exact Or.inl h
  | putUmsComplist p _ =>
    cases p with
    | delete | worker => exact Or.inl h
    | scheduler _ | entering => exact Or.inr rfl
  | addLock k _ _ | addLink k _ _ | addUnlock k _ | addWake k _ => cases k <;> exact Or.inl h
  | eventLock k _ | eventAdd k _ | eventUnlock k _ | eventWake k _ =>
    cases k with
    | startup | putBack => cases h
    | yield _ | finish _ => exact Or.inl h
  | takeLock d | takeTest d | takeUnlockWait d | takeWait d | takeBlocked d | takeFirst d
  | takeUnlock d _ =>
    cases d with
    | contexts _ _ => exact Or.inl h
    | events _ => cases h
  | _ => cases h

theorem Op.complist_of_free (op : Op) (h : op.free = true) :
    op.complist = none ∧ op.scheduler = none := by
  cases op with
  | rcuReadUnlock | schedule | removeWorker _ | procRemove _ => exact ⟨rfl, rfl⟩
  | _ => cases h

namespace Kernel

variable {s s' : Kernel} {t : Pid} {op : Op} {a : Addr}

theorem Meets.complist {n : Need} (h : s.Meets t n) (ha : n.complist = some a) :
    s.complist a ≠ none := by
  have hsome (b : Addr) (o : ComplistObj) (ho : s.complist b = some o) (hb : some b = some a) :
      s.complist a ≠ none := by
    rw [← Option.some.inj hb, ho]
    exact Option.some_ne_none o
  cases n with
  | found b | own _ b =>
    obtain ⟨o, ho, -⟩ := h
    exact hsome b o ho ha
  | blank b | listed b _ | made b =>
    obtain ⟨o, ho, -⟩ := h
    exact hsome b o ho.object ha
  | releasing b =>
    obtain ⟨o, ho⟩ := h
    exact hsome b o ho.object ha
  | removed b =>
    obtain ⟨o, ho, -⟩ := h
    exact hsome b o ho.object ha
  | nothing | reading | never => cases ha

/-- All that the operations of a thread are about is there. -/
theorem Inv.uses (hi : s.Inv) (hop : op ∈ (s.task t).rest) :
    (∀ a, op.complist = some a → s.complist a ≠ none) ∧
      ∀ q, op.scheduler = some q → s.scheduler q ≠ none := by
  rcases hi.tasks t with ⟨-, hnil⟩ | ⟨b, -, -, hhead⟩
  · rw [hnil] at hop
    cases hop
  cases hrest : (s.task t).rest with
  | nil =>
    rw [hrest] at hop
    cases hop
  | cons x tail =>
    rw [hrest] at hop hhead
    rcases List.mem_cons.mp hop with rfl | htail
    · obtain ⟨⟨hneed, hq⟩, -⟩ := hhead
      refine ⟨fun a ha => ?_, hq⟩
      rcases op.need_complist a ha with hn | hn
      · exact hneed.complist hn
      · rw [hn] at hneed
        exact hneed.elim
    · obtain ⟨hc, hs⟩ := op.complist_of_free (hhead.2 op htail)
      simp [hc, hs]

/-- The lists and schedulers of all operations that the threads still have to do are there. -/
def UsesAlive (s : Kernel) : Prop :=
  ∀ t, ∀ op ∈ (s.task t).rest, (∀ a, op.complist = some a → s.complist a ≠ none) ∧
    ∀ q, op.scheduler = some q → s.scheduler q ≠ none

/-- The step is an operation that may sleep, inside a read section or under a spinlock. -/
def SleepsInside (s : Kernel) : KernelAct → Prop
  | .run t _ => ∃ op ∈ (s.task t).rest.head?, op.maySleep = true ∧
      (0 < (s.task t).rcu ∨ 0 < (s.task t).spin)
  | _ => False

/-- The step is no operation at one of the known sites. -/
def OffSites (s : Kernel) : KernelAct → Prop
  | .run t _ => ∀ op ∈ (s.task t).rest.head?, op.atomicSite = false
  | _ => True

def Careful (s : Kernel) : KernelAct → Prop
  | .run t luck => ∀ op ∈ (s.task t).rest.head?, s.careful luck op = true
  | _ => True

instance (s : Kernel) : DecidablePred s.OffSites
  | .run t _ => inferInstanceAs (Decidable (∀ op ∈ (s.task t).rest.head?, _))
  | .call _ _ | .free _ => inferInstanceAs (Decidable True)

instance (s : Kernel) : DecidablePred s.Careful
  | .run t _ => inferInstanceAs (Decidable (∀ op ∈ (s.task t).rest.head?, _))
  | .call _ _ | .free _ => inferInstanceAs (Decidable True)

/-- While the threads keep exactly to their levels, every operation at a site is one that sleeps
inside. -/
theorem Inv.sleepsInside (hi : s.Inv) (act : KernelAct) (h : ¬ s.OffSites act) :
    s.SleepsInside act := by
  cases act with
  | run t luck =>
    simp only [OffSites, not_forall, Bool.not_eq_false] at h
    obtain ⟨op, hop, hsite⟩ := h
    obtain ⟨hsleep, hnesting⟩ := op.maySleep_of_atomicSite hsite
    refine ⟨op, hop, hsleep, ?_⟩
    obtain ⟨tail, hrest⟩ : ∃ tail, (s.task t).rest = op :: tail := List.head?_eq_some_iff.mp hop
    rcases hi.tasks t with ⟨-, hnil⟩ | ⟨b, hflow, -⟩
    · rw [hrest] at hnil
      cases hnil
    · rw [hrest] at hflow
      have hlevel : ((s.task t).rcu, (s.task t).spin) = op.nesting :=
        congrArg Prod.fst (flow_cons.mp hflow).1
      rwa [← hlevel] at hnesting
  | call t r => exact absurd trivial h
  | free o => exact absurd trivial h

theorem not_offSites (hr : Reach step (fun _ _ => True) init s) (act : KernelAct)
    (h : s.SleepsInside act) : ¬ s.OffSites act := by
  cases act with
  | run t luck =>
    obtain ⟨op, hop, hsleep, hinside⟩ := h
    obtain ⟨tail, hrest⟩ : ∃ tail, (s.task t).rest = op :: tail := List.head?_eq_some_iff.mp hop
    have hsite := sleeps_at_sites s hr t op tail hrest hsleep hinside
    intro hoff
    rw [hoff op hop] at hsite
    cases hsite
  | call t r => exact h.elim
  | free o => exact h.elim

/-- A careful step off the sites is sheltered, since its thread does not sleep inside a section. -/
theorem sheltered_of_offSites (hr : Reach step (fun _ _ => True) init s) (act : KernelAct)
    (hcareful : s.Careful act) (hoff : s.OffSites act) : s.Sheltered act := by
  cases act with
  | run t luck =>
    refine fun op hop => ⟨hcareful op hop, fun hs hrcu => ?_⟩
    exact absurd hoff (not_offSites hr (.run t luck)
      ⟨op, hop, maySleep_of_sleeps hs, Or.inl hrcu⟩)
  | call t r => trivial
  | free o => trivial

/-- In every run, a step that sleeps inside a read section or under a spinlock is at one of the
known sites. In a sheltered run these are exactly the steps at the sites, and the lists and
schedulers of all operations to come are there. If such a run goes on with careful steps that are
not at the sites, then none of these sleeps inside, and what was found stays there until it is used
no more. -/
theorem found_outlives_use (s : Kernel) (hr : Reach step (fun _ _ => True) init s) :
    (∀ act, s.SleepsInside act → ¬ s.OffSites act) ∧
    (Reach step Sheltered init s →
      ((∀ act, s.SleepsInside act ↔ ¬ s.OffSites act) ∧ s.UsesAlive) ∧
      ∀ s', Reach step (fun s act => s.Careful act ∧ s.OffSites act) s s' →
        (∀ act, s'.Careful act ∧ s'.OffSites act → ¬ s'.SleepsInside act) ∧ s'.UsesAlive) := by
  have hany (s : Kernel) (hr : Reach step Sheltered init s) :
      Reach step (fun _ _ => True) init s := hr.mono fun _ _ _ => trivial
  have hinv (s : Kernel) (hr : Reach step Sheltered init s) : s.Inv :=
    hr.invariant Inv inv_init fun _ act _ hi hok h => hi.step act hok h
  refine ⟨not_offSites hr, fun hs => ⟨⟨fun act => ?_, ?_⟩, fun s' hr' => ?_⟩⟩
  · exact ⟨not_offSites hr act, (hinv s hs).sleepsInside act⟩
  · exact fun t op hop => (hinv s hs).uses hop
  · have hboth : Reach step Sheltered init s' :=
      hr'.invariant (Reach step Sheltered init) hs fun m act _ h hok hstep =>
        .tail act h (sheltered_of_offSites (hany m h) act hok.1 hok.2) hstep
    refine ⟨fun act hok hin => not_offSites (hany s' hboth) act hin hok.2, fun t op hop => ?_⟩
    exact (hinv s' hboth).uses hop

/-- Thread 1 makes the lists 1 and 2, and thread 10 enters as scheduler of list 2. -/
def otherList : List KernelAct :=
  .call 1 .create :: List.replicate 7 (.run 1 {}) ++
    .call 1 .create :: List.replicate 7 (.run 1 { id := 2 }) ++
    .call 10 (.enter .scheduler 2) :: List.replicate 13 (.run 10 {})

/-- Thread 1 deletes list 1. -/
def deleteList : List KernelAct := .call 1 (.delete 1) :: List.replicate 9 (.run 1 {})

/-- The scheduler has found list 1 when it is deleted, and the callback waits. -/
theorem found_outlives_use_pending :
    ∃ s s', Reach step Sheltered init s ∧
      Reach step (fun s act => s.Careful act ∧ s.OffSites act) s s' ∧
      (s'.task 10).rest = [.findScheduler 0, .rcuReadUnlock] ∧
      s'.rcu.waits (.complist 0) = some [10] ∧ s'.complist 0 ≠ none := by
  obtain ⟨s, hr, hnext⟩ := Reach.exists_of_run step Sheltered init otherList
    (fun s => (run step (fun s act => s.Careful act ∧ s.OffSites act) s
      (.call 10 (.dqcontext 1) :: List.replicate 3 (.run 10 {}) ++ deleteList)).map (fun s' =>
        decide ((s'.task 10).rest = [.findScheduler 0, .rcuReadUnlock] ∧
          s'.rcu.waits (.complist 0) = some [10])) = some true) (by decide +kernel)
  obtain ⟨s', hr', hrest, hwaits⟩ := Reach.exists_of_run step _ s _ _ hnext
  obtain ⟨-, halive⟩ := ((found_outlives_use s (hr.mono fun _ _ _ => trivial)).2 hr).2 s' hr'
  exact ⟨s, s', hr, hr', hrest, hwaits, (halive 10 (.findScheduler 0) (by simp [hrest])).1 0 rfl⟩

/-- The scheduler of list 2 waits in a dequeue from the empty list 1, inside its read section. List
1 is deleted and freed, and the wait goes on with it. -/
theorem blocked_dequeue_outlives_list :
    (∃ s, Reach step (fun _ _ => True) init s ∧
      (s.task 10).rest = [.takeWait (.contexts 0 0), .rcuReadUnlock] ∧ (s.task 10).rcu = 1) ∧
    ∃ s, Reach step (fun _ _ => True) init s ∧
      (s.task 10).rest = [.takeBlocked (.contexts 0 0), .rcuReadUnlock] ∧ (s.task 10).rcu = 1 ∧
      s.complist 0 = none ∧ (s.complist 1).map ComplistObj.holders = some [.scheduler 10] :=
  ⟨Reach.exists_of_run step (fun _ _ => True) init
      (otherList ++ .call 10 (.dqcontext 1) :: List.replicate 7 (.run 10 {})) _ (by decide +kernel),
    Reach.exists_of_run step (fun _ _ => True) init
      (otherList ++ .call 10 (.dqcontext 1) :: List.replicate 8 (.run 10 {}) ++ deleteList ++
        [.free (.complist 0)]) _ (by decide +kernel)⟩

end Kernel

end LinuxUms
