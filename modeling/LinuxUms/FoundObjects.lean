import LinuxUms.GracePeriods

/-! What each operation of the handlers leaves behind, for its thread and for the others: a list or
scheduler that a thread needs next is there. -/
namespace LinuxUms

open Transition

namespace Kernel

variable {s s' : Kernel} {t u : Pid} {op : Op} {r : Option (List Op)} {ops : List Op} {a q : Addr}

theorem scheduler_find (f : Find) : (Op.find f).scheduler = (Op.rcuReadLock f).scheduler := by
  rcases f with ⟨- | - | - | -⟩ | - | - | - | - | - <;> rfl

theorem good_rcuReadLock (hc : s.Core) (hset : s.Settled t) (f : Find)
    (hq : ∀ q, (Op.rcuReadLock f).scheduler = some q → s.scheduler q ≠ none)
    (hrcu : (s.task t).rcu = 0) :
    Good s (s.enterSection t) t (.rcuReadLock f) (some [.find f]) := by
  have hlock : s.enterSection t = { s with rcu := s.rcu.lock t } := by
    simp [enterSection, hrcu]
  rw [hlock]
  refine ⟨{ hc with }, ?_, fun ops he => ?_, fun _ => hset⟩
  · exact { Evolves.refl s t with
      readers := fun _ _ hu => List.mem_cons_of_mem _ hu
      shields := fun _ _ _ hs => hs.lock t }
  · obtain rfl := Option.some.inj he
    exact headOk_one ⟨List.mem_cons_self, fun q he => hq q (scheduler_find f ▸ he)⟩

/-- The section of `t` ends. -/
theorem Core.leave (hc : s.Core) : Core { s with rcu := s.rcu.leave t } where
  idr i b hi := by
    obtain ⟨o, ho, hw, hid⟩ := hc.idr i b hi
    exact ⟨o, ho, Rcu.leave_waits_none.mpr hw, hid⟩
  count := hc.count
  waits b o ho hw := hc.waits b o ho fun hn => hw (Rcu.leave_waits_none.mpr hn)
  fresh b hb := ⟨(hc.fresh b hb).1, Rcu.leave_waits_none.mpr (hc.fresh b hb).2⟩
  schedulers := hc.schedulers
  parents := hc.parents
  kept q := Rcu.leave_waits_none.mpr (hc.kept q)

theorem Evolves.leave : Evolves s { s with rcu := s.rcu.leave t } t :=
  { Evolves.refl s t with
    readers := fun _ hne hu => List.mem_filter.mpr ⟨hu, by simpa using hne⟩
    shields := fun _ _ hne hs => hs.leave hne
    waits := fun _ _ _ hw => Or.inl (Rcu.leave_waits_none.mpr hw) }

/-- A thread that leaves its section keeps what it does not owe to it. -/
theorem meets_leave (n : Need) (h : s.Meets t n) (hread : n ≠ .reading)
    (hfound : ∀ a, n = .found a → ∃ o, s.complist a = some o ∧ .scheduler t ∈ o.holders) :
    Meets { s with rcu := s.rcu.leave t } t n := by
  cases n with
  | nothing => trivial
  | reading => exact absurd rfl hread
  | found a =>
    obtain ⟨o, ho, hr, -⟩ := h
    obtain ⟨x, hx, hmem⟩ := hfound a rfl
    obtain rfl := Option.some.inj (ho.symm.trans hx)
    exact ⟨o, ho, hr, Or.inr hmem⟩
  | own r a => exact h
  | blank a =>
    obtain ⟨o, ho, hid⟩ := h
    exact ⟨o, { ho with waits := Rcu.leave_waits_none.mpr ho.waits }, hid⟩
  | listed a i =>
    obtain ⟨o, ho, hid⟩ := h
    exact ⟨o, { ho with waits := Rcu.leave_waits_none.mpr ho.waits }, hid⟩
  | made a =>
    obtain ⟨o, ho, hid⟩ := h
    exact ⟨o, { ho with waits := Rcu.leave_waits_none.mpr ho.waits }, hid⟩
  | releasing a =>
    obtain ⟨o, ho⟩ := h
    exact ⟨o, { ho with waits := Rcu.leave_waits_none.mpr ho.waits }⟩
  | removed a =>
    obtain ⟨o, ho, hid⟩ := h
    exact ⟨o, { ho with waits := Rcu.leave_waits_none.mpr ho.waits }, hid⟩
  | never => exact h

theorem leaveSection_eq (hrcu : (s.task t).rcu = 1) :
    s.leaveSection t = { s with rcu := s.rcu.leave t } := by
  simp [leaveSection, hrcu]

theorem good_rcuReadUnlock (hc : s.Core) (hset : s.Settled t) (hrcu : (s.task t).rcu = 1) :
    Good s (s.leaveSection t) t .rcuReadUnlock (some []) := by
  rw [leaveSection_eq hrcu]
  refine ⟨hc.leave, .leave, fun ops he => ?_, fun _ => hset⟩
  obtain rfl := Option.some.inj he
  trivial

theorem good_enterUnlock (hc : s.Core) (hset : s.Settled t) (e : Entering)
    (hop : s.OpOk t (.enterUnlock e a)) (hrcu : (s.task t).rcu = 1) :
    Good s (s.leaveSection t) t (.enterUnlock e a) (some (e.next a)) := by
  rw [leaveSection_eq hrcu]
  refine ⟨hc.leave, .leave, fun ops he => ?_, fun _ => hset⟩
  obtain rfl := Option.some.inj he
  obtain ⟨hneed, hq⟩ := hop
  cases e with
  | worker => exact headOk_meets hneed rfl
  | scheduler q => exact headOk_one ⟨hneed, hq⟩

/-- A list that is found while it is ready is safe inside the section. -/
theorem Core.found (hc : s.Core) (i : ListId) (hi : s.idr i = some a) (ht : t ∈ s.rcu.readers)
    (hready : ∀ o ∈ s.complist a, o.ready = true) : s.Meets t (.found a) := by
  obtain ⟨o, ho, hw, -⟩ := hc.idr i a hi
  exact ⟨o, ho, hready o ho, Or.inl (.of_found ht hw)⟩

theorem headOk_lookup (hc : s.Core) (f : Find) (hop : s.OpOk t (.find f))
    (hready : ∀ u i, f = .complist u i → ∀ a ∈ s.idr i, ∀ o ∈ s.complist a, o.ready = true)
    (hknown : ∀ e i, f = .complist (.enter e) i → s.idr i ≠ none) :
    s.HeadOk t (s.lookup t f) := by
  obtain ⟨ht, hq⟩ := hop
  cases f with
  | complist u i =>
    cases hi : s.idr i with
    | none =>
      cases u with
      | delete | dequeue => simp [lookup, hi, HeadOk]
      -- excluded here: an enter whose id is unknown takes an error path
      | enter e => exact absurd hi (hknown e i rfl)
    | some a =>
      have hfound := hc.found i hi ht (hready u i rfl a hi)
      cases u with
      | delete =>
        simp only [lookup, hi, Option.elim_some]
        exact headOk_meets hfound rfl
      | dequeue =>
        simp only [lookup, hi, Option.elim_some]
        exact headOk_meets hfound rfl
      | enter e =>
        simp only [lookup, hi, Option.elim_some]
        refine headOk_one ⟨hfound, fun q he => hq q ?_⟩
        cases e <;> exact he
  | context c =>
    cases hw : s.workers c with
    | none => simp [lookup, hw, HeadOk]
    | some w =>
      simp only [lookup, hw, Option.elim_some]
      exact headOk_meets trivial rfl
  | events =>
    cases hs : s.schedulers t with
    | none => simp [lookup, hs, HeadOk]
    | some q =>
      simp only [lookup, hs, Option.elim_some]
      exact headOk_one ⟨trivial, fun p hp => Option.some.inj hp ▸ hc.schedulers t q hs⟩
  | exec w =>
    have hfail : s.HeadOk t [.rcuReadUnlock] := headOk_meets trivial rfl
    cases hw : s.workers w with
    | none => simpa only [lookup, hw, Option.elim_none] using hfail
    | some x =>
      cases hs : s.schedulers t with
      | none => simpa only [lookup, hw, hs, Option.elim_none, Option.elim_some] using hfail
      | some q =>
        simp only [lookup, hw, hs, Option.elim_some]
        exact headOk_cons ⟨trivial, fun p hp => Option.some.inj hp ▸ hc.schedulers t q hs⟩ rfl
  | yield =>
    cases hw : s.workers t <;> simp only [lookup, hw, Option.elim_none, Option.elim_some] <;>
      exact headOk_meets trivial rfl
  | finish =>
    cases hw : s.workers t with
    | none => simp [lookup, hw, HeadOk]
    | some w =>
      simp only [lookup, hw, Option.elim_some]
      exact headOk_meets trivial rfl

theorem setScheduler_ne_none (p q : Addr) (y : SchedulerObj) (h : s.scheduler p ≠ none) :
    (s.setScheduler q y).scheduler p ≠ none := by
  by_cases hpq : p = q
  · simp [setScheduler, hpq]
  · simpa [setScheduler, Function.update_of_ne hpq] using h

theorem good_insertContext (hc : s.Core) (hset : s.Settled t) (i : ListId) (r : Role) :
    Good s (s.insertContext t i r).1 t (.insertContext r i) (s.insertContext t i r).2 := by
  cases r with
  | worker =>
    unfold insertContext
    dsimp only
    split
    · -- the insertion failed
      exact .to hc (fun _ => hset) trivial
    · refine ⟨?_, ?_, fun ops he => ?_, fun _ => ?_⟩
      · refine { hc with parents := fun u w q hw hq => ?_ }
        rcases KernelList.update_some_cases hw with ⟨-, rfl⟩ | ⟨-, hw⟩
        · cases hq
        · exact hc.parents u w q hw hq
      · refine { Evolves.refl s t with workers := fun u w b hne hw hb => ?_ }
        exact ⟨w, (Function.update_of_ne hne ..).symm.trans hw, hb⟩
      · obtain rfl := Option.some.inj he
        exact headOk_meets trivial rfl
      · intro w b hw hb
        rcases KernelList.update_some_cases hw with ⟨-, rfl⟩ | ⟨hne, -⟩
        · cases hb
        · exact absurd rfl hne
  | scheduler =>
    unfold insertContext
    dsimp only
    split
    · exact .to hc (fun _ => hset) trivial
    · have hkeep (q : Addr) (hq : s.scheduler q ≠ none) :=
        setScheduler_ne_none q s.nextScheduler ⟨none, 0⟩ hq
      refine ⟨?_, ?_, fun ops he => ?_, fun _ => hset⟩
      · refine { hc with schedulers := fun u q hu => ?_, parents := fun u w q hw hq => ?_ }
        · rcases KernelList.update_some_cases hu with ⟨-, rfl⟩ | ⟨-, hu⟩
          · simp [setScheduler]
          · exact hkeep q (hc.schedulers u q hu)
        · exact hkeep q (hc.parents u w q hw hq)
      · exact { Evolves.refl s t with scheduler := hkeep }
      · obtain rfl := Option.some.inj he
        refine headOk_one ⟨trivial, fun q hq => ?_⟩
        obtain rfl : s.nextScheduler = q := Option.some.inj hq
        simp [setScheduler]

theorem good_suspendWorker (hc : s.Core) (hop : s.OpOk t (.suspendWorker a)) (w : WorkerObj)
    (hw : s.workers t = some w) :
    Good s { s with workers := Function.update s.workers t (some { w with complist := some a }) } t
      (.suspendWorker a) (some [.addLock .enter a t]) := by
  refine ⟨?_, ?_, fun ops he => ?_, fun _ => ?_⟩
  · refine { hc with parents := fun u x q hx hq => ?_ }
    rcases KernelList.update_some_cases hx with ⟨rfl, rfl⟩ | ⟨-, hx⟩
    · exact hc.parents u w q hw hq
    · exact hc.parents u x q hx hq
  · refine { Evolves.refl s t with workers := fun u x b hne hx hb => ?_ }
    exact ⟨x, (Function.update_of_ne hne ..).symm.trans hx, hb⟩
  · obtain rfl := Option.some.inj he
    exact headOk_meets hop.1 rfl
  · intro x b hx hb
    rcases KernelList.update_some_cases hx with ⟨-, rfl⟩ | ⟨hne, -⟩
    · obtain rfl : a = b := Option.some.inj hb
      exact hop.1
    · exact absurd rfl hne

/-- A worker gets a parent. -/
theorem good_switchTo (hc : s.Core) (hset : s.Settled t) (w : Pid)
    (hop : s.OpOk t (.switchTo w q)) :
    Good s { s with
        workers := Function.update s.workers w
          ((s.workers w).map fun x => { x with parent := some q }) }
      t (.switchTo w q) (some []) := by
  -- every worker has the list that it had
  have hlist (u : Pid) (x : WorkerObj) (b : Addr)
      (hx : Function.update s.workers w ((s.workers w).map fun x => { x with parent := some q }) u =
        some x) (hb : x.complist = some b) : ∃ v, s.workers u = some v ∧ v.complist = some b := by
    by_cases huw : u = w
    · subst huw
      rw [Function.update_self] at hx
      obtain ⟨v, hv, rfl⟩ := Option.map_eq_some_iff.mp hx
      exact ⟨v, hv, hb⟩
    · exact ⟨x, (Function.update_of_ne huw ..).symm.trans hx, hb⟩
  refine ⟨?_, ?_, fun ops he => ?_, fun _ => ?_⟩
  · refine { hc with parents := fun u x p hx hp => ?_ }
    by_cases huw : u = w
    · subst huw
      simp only [Function.update_self] at hx
      obtain ⟨v, -, rfl⟩ := Option.map_eq_some_iff.mp hx
      obtain rfl : q = p := Option.some.inj hp
      exact hop.2 q rfl
    · exact hc.parents u x p ((Function.update_of_ne huw ..).symm.trans hx) hp
  · exact { Evolves.refl s t with workers := fun u x b _ hx hb => hlist u x b hx hb }
  · obtain rfl := Option.some.inj he
    trivial
  · intro x b hx hb
    obtain ⟨v, hv, hvb⟩ := hlist t x b hx hb
    exact hset v b hv hvb

theorem good_removeWorker (hc : s.Core) (p : Putting) :
    Good s { s with workers := Function.update s.workers t none } t (.removeWorker p)
      (some []) := by
  refine ⟨?_, ?_, fun ops he => ?_, fun _ => ?_⟩
  · exact { hc with parents := fun u x q hx => hc.parents u x q (KernelList.of_update_none hx).2 }
  · exact { Evolves.refl s t with
      workers := fun u x b _ hx hb => ⟨x, (KernelList.of_update_none hx).2, hb⟩ }
  · obtain rfl := Option.some.inj he
    trivial
  · exact fun x b hx => absurd rfl (KernelList.of_update_none hx).1

/-- The contexts of a list are nobody's need. -/
theorem good_contexts (hc : s.Core) (hset : s.Settled t) (o : ComplistObj)
    (ho : s.complist a = some o) (cs : List Pid) (x : Op) (hop : s.OpOk t x)
    (hneed : x.need = .found a ∨ ∃ r, x.need = .own r a) :
    Good s (s.setComplist a { o with contexts := cs }) t op (some [x]) := by
  obtain ⟨hmeets, hq⟩ := hop
  have hr : o.ready = true := by
    rcases hneed with he | ⟨r, he⟩ <;> rw [he] at hmeets <;> obtain ⟨y, hy, hr, -⟩ := hmeets <;>
      exact Option.some.inj (ho.symm.trans hy) ▸ hr
  refine ⟨hc.setComplist ho (fun i hi _ => ?_) (fun _ => hc.count a o ho hr)
      (fun hw => hc.waits a o ho hw),
    .setComplist ho (fun _ => ⟨hr, fun _ hm _ => hm, fun hz => ⟨hz, rfl⟩⟩) (fun hraw => ?_),
    fun ops he => ?_, fun _ => hset.setComplist ho fun hr hm => ⟨hr, hm⟩⟩
  · obtain ⟨y, hy, -, hyi⟩ := hc.idr i a hi
    obtain rfl := Option.some.inj (ho.symm.trans hy)
    exact hyi hr
  · rw [hr] at hraw
    cases hraw
  · obtain rfl := Option.some.inj he
    refine headOk_one ⟨?_, hq⟩
    rcases hneed with he | ⟨r, he⟩ <;> rw [he] at hmeets ⊢ <;> obtain ⟨y, hy, hkeep⟩ := hmeets <;>
      obtain rfl := Option.some.inj (ho.symm.trans hy) <;>
      exact ⟨_, Function.update_self .., hkeep⟩

theorem good_setScheduler (hc : s.Core) (hset : s.Settled t) (y : SchedulerObj)
    (hnext : s.HeadOk t ops) :
    Good s (s.setScheduler q y) t op (some ops) where
  core := { hc with
    schedulers := fun u p hu => setScheduler_ne_none p q y (hc.schedulers u p hu)
    parents := fun u w p hw hp => setScheduler_ne_none p q y (hc.parents u w p hw hp) }
  evolves := { Evolves.refl s t with scheduler := fun p hp => setScheduler_ne_none p q y hp }
  next xs he := by
    obtain rfl := Option.some.inj he
    exact headOk_of_eq (s := s) rfl rfl rfl (fun p hp => setScheduler_ne_none p q y hp) hnext
  settled _ := hset

/-- What a worker with a list and a parent needs to post an event. -/
theorem Core.parent (hc : s.Core) (hset : s.Settled t) (hw : s.workers t = some ⟨some a, some q⟩) :
    s.Meets t (.own .worker a) ∧ s.scheduler q ≠ none :=
  ⟨hset _ a hw rfl, hc.parents t _ q hw rfl⟩

/-- What the kernel code leaves to its callers and to luck: a lookup finds a list whose creator has
returned, an enter finds its list, no reference is taken to a list that has none, a list is deleted
once, and there is memory for the startup event. -/
def careful (s : Kernel) (luck : OpLuck) : Op → Bool
  | .find (.complist (.enter _) i) =>
    (s.idr i).any fun a => (s.complist a).all ComplistObj.ready
  | .find (.complist _ i) => (s.idr i).all fun a => (s.complist a).all ComplistObj.ready
  | .getUmsComplist _ a => (s.complist a).all fun o => 1 ≤ o.refcount
  | .putUmsComplist .delete a => (s.complist a).all fun o => !o.deleted
  | .allocStartup _ _ => luck.ok
  | _ => true

variable {luck : OpLuck}

theorem careful_find (f : Find) (h : s.careful luck (.find f) = true) :
    (∀ u i, f = .complist u i → ∀ a ∈ s.idr i, ∀ o ∈ s.complist a, o.ready = true) ∧
      ∀ e i, f = .complist (.enter e) i → s.idr i ≠ none := by
  constructor
  · rintro u i rfl b hb o ho
    cases u <;> simp only [careful, Option.mem_def.mp hb, Option.mem_def.mp ho,
      Option.any_some, Option.all_some] at h <;> exact h
  · rintro e i rfl hnone
    simp [careful, hnone] at h

theorem exec_good (hc : s.Core) (hop : s.OpOk t op) (hset : op.detached = false → s.Settled t)
    (hcareful : s.careful luck op = true) (hrcu : (s.task t).rcu = op.nesting.1)
    (h : s.exec t luck op = some (s', r)) : Good s s' t op r := by
  cases op with
  -- sections and lookups
  | rcuReadLock f =>
    obtain ⟨rfl, rfl⟩ := Prod.mk.inj (Option.some.inj h)
    exact good_rcuReadLock hc (hset rfl) f hop.2 hrcu
  | rcuReadUnlock =>
    obtain ⟨rfl, rfl⟩ := Prod.mk.inj (Option.some.inj h)
    exact good_rcuReadUnlock hc (hset rfl) hrcu
  | enterUnlock e a =>
    obtain ⟨rfl, rfl⟩ := Prod.mk.inj (Option.some.inj h)
    exact good_enterUnlock hc (hset rfl) e hop hrcu
  | find f =>
    obtain ⟨rfl, rfl⟩ := Prod.mk.inj (Option.some.inj h)
    obtain ⟨hready, hknown⟩ := careful_find f hcareful
    exact .to hc hset (headOk_lookup hc f hop hready hknown)
  | findScheduler a =>
    obtain ⟨rfl, rfl⟩ := Prod.mk.inj (Option.some.inj h)
    refine .to hc hset ?_
    cases hq : s.schedulers t with
    | none => trivial
    | some q => exact headOk_one ⟨hop.1, fun p hp => Option.some.inj hp ▸ hc.schedulers t q hq⟩
  -- operations that change nothing
  | schedule | procRemove _ | copyNext =>
    obtain ⟨rfl, rfl⟩ := Prod.mk.inj (Option.some.inj h)
    exact .to hc hset trivial
  | idrPreload a =>
    obtain ⟨rfl, rfl⟩ := Prod.mk.inj (Option.some.inj h)
    exact .to hc hset (headOk_one hop)
  | copyArgs r i | allocContext r i | procRegister r i =>
    obtain ⟨rfl, rfl⟩ := Prod.mk.inj (Option.some.inj h)
    refine .to hc hset ?_
    split
    · exact headOk_meets trivial rfl
    · trivial
  | copyListId i | copyContextId c =>
    obtain ⟨rfl, rfl⟩ := Prod.mk.inj (Option.some.inj h)
    refine .to hc hset ?_
    split
    · exact headOk_cons (opOk_of_meets trivial rfl) rfl
    · trivial
  | copyContext a c =>
    obtain ⟨rfl, rfl⟩ := Prod.mk.inj (Option.some.inj h)
    refine .to hc hset ?_
    split
    · trivial
    · exact headOk_meets hop.1 rfl
  | copyEvent q =>
    obtain ⟨rfl, rfl⟩ := Prod.mk.inj (Option.some.inj h)
    refine .to hc hset ?_
    split
    · trivial
    · exact headOk_one ⟨trivial, hop.2⟩
  | wakeUpAll p a =>
    refine .useComplist hc hset (fun o ho => ?_) h
    exact .to hc hset (headOk_meets hop.1 rfl)
  | addWake k a =>
    refine .useComplist hc hset (fun o ho => ?_) h
    refine .to hc hset ?_
    cases k with
    | enter => exact headOk_meets trivial rfl
    | yield | putBack => trivial
  | eventWake k q =>
    refine .useScheduler hc hset (fun y hy => ?_) h
    refine .to hc hset ?_
    cases k with
    | startup | putBack => trivial
    | yield a | finish a => exact headOk_one hop
  | symlinkFirst a q c cs =>
    refine .useScheduler hc hset (fun y hy => ?_) h
    refine .to hc hset ?_
    split
    · exact headOk_one hop
    · exact headOk_meets hop.1 rfl
  | symlinkRest a q c cs =>
    cases cs with
    | nil =>
      obtain ⟨rfl, rfl⟩ := Prod.mk.inj (Option.some.inj h)
      exact .to hc hset (headOk_meets hop.1 rfl)
    | cons d ds =>
      refine .useScheduler hc hset (fun y hy => ?_) h
      exact .to hc hset (headOk_one hop)
  | removeLink w q =>
    refine .useScheduler hc hset (fun y hy => ?_) h
    exact .to hc hset (headOk_one hop)
  | switchBack a q | wakeUpContext a q =>
    refine .useScheduler hc hset (fun y hy => ?_) h
    exact .to hc hset (headOk_meets hop.1 rfl)
  -- locks
  | idrLockAlloc a =>
    refine .spinLock hc hset (headOk_one ?_) h
    exact hop
  | idrLockRemove m a =>
    refine .spinLock hc hset (headOk_one ?_) h
    cases m <;> exact hop
  | addLock k a c =>
    refine .spinLock hc hset (headOk_one ?_) h
    cases k <;> exact hop
  | eventLock k q =>
    refine .spinLock hc hset (headOk_one ?_) h
    cases k <;> exact hop
  | takeLock d =>
    refine .spinLock hc hset (headOk_one ?_) h
    cases d <;> exact hop
  | idrUnlockAlloc a i =>
    refine .spinUnlock hc hset (headOk_one ?_) h
    exact hop
  | idrUnlockRemove m a =>
    refine .spinUnlock hc hset ?_ h
    cases m <;> exact headOk_one hop
  | addUnlock k a =>
    refine .spinUnlock hc hset (headOk_one ?_) h
    cases k <;> exact hop
  | eventUnlock k q =>
    refine .spinUnlock hc hset (headOk_one ?_) h
    cases k <;> exact hop
  | takeUnlockWait d =>
    refine .spinUnlock hc hset (headOk_one ?_) h
    cases d <;> exact hop
  | takeUnlock d cs =>
    refine .spinUnlock hc hset ?_ h
    cases d with
    | contexts a q =>
      cases cs with
      | nil => trivial
      | cons c cs => exact headOk_one hop
    | events q => exact headOk_one hop
  -- lists
  | allocUmsComplist =>
    simp only [exec] at h
    split at h <;> obtain ⟨rfl, rfl⟩ := Prod.mk.inj (Option.some.inj h)
    · exact .to hc hset trivial
    · exact good_allocUmsComplist hc (hset rfl)
  | idrAlloc a =>
    simp only [exec] at h
    split at h
    · obtain ⟨rfl, rfl⟩ := Prod.mk.inj (Option.some.inj h)
      obtain ⟨⟨o, ho, hid⟩, -⟩ := hop
      exact .to hc hset
        (headOk_meets ⟨o, ho, fun j hj => absurd hj (hid j)⟩ rfl)
    split at h
    · obtain ⟨rfl, rfl⟩ := Prod.mk.inj (Option.some.inj h)
      exact good_idrAlloc hc (hset rfl) hop.1 luck.id
    · cases h
  | umsComplistInit a i =>
    exact .useComplist hc hset (fun o ho => good_umsComplistInit hc (hset rfl) i hop.1 o ho) h
  | copyId a =>
    refine .useComplist hc hset (fun o ho => ?_) h
    split
    · exact good_copyId hc (hset rfl) hop.1 o ho
    · exact .to hc hset (headOk_one hop)
  | idrRemove m a =>
    refine .useComplist hc hset (fun o ho => ?_) h
    cases m with
    | undo => exact good_idrRemove_undo hc (hset rfl) hop.1 o ho
    | release p => exact good_idrRemove_release hc p hset hop.1 o ho
  | freeUmsComplist a =>
    obtain ⟨rfl, rfl⟩ := Prod.mk.inj (Option.some.inj h)
    exact good_freeUmsComplist hc (hset rfl) hop.1
  | callRcu p a =>
    obtain ⟨rfl, rfl⟩ := Prod.mk.inj (Option.some.inj h)
    exact good_callRcu hc p hset hop.1
  | getUmsComplist e a =>
    refine .useComplist hc hset (fun o ho => good_getUmsComplist hc (hset rfl) e hop o ho ?_) h
    simpa [careful, ho] using hcareful
  | putUmsComplist p a =>
    refine .useComplist hc (fun _ => hset rfl) (fun o ho => ?_) h
    cases p with
    | delete =>
      obtain ⟨⟨x, hx, hr, -⟩, -⟩ := hop
      obtain rfl := Option.some.inj (ho.symm.trans hx)
      refine good_putUmsComplist hc .delete (fun _ => hset rfl) o ho hr (Or.inl ⟨rfl, ?_⟩)
      simpa [careful, ho] using hcareful
    | worker =>
      obtain ⟨⟨x, hx, hr, hmem⟩, -⟩ := hop
      obtain rfl := Option.some.inj (ho.symm.trans hx)
      exact good_putUmsComplist hc .worker (fun _ => hset rfl) o ho hr (Or.inr ⟨rfl, hmem⟩)
    | scheduler q | entering => exact hop.1.elim
  -- workers and schedulers
  | insertContext r i =>
    simp only [exec] at h
    split at h
    · have hgood := good_insertContext hc (hset rfl) i r
      rw [Option.some.inj h] at hgood
      exact hgood
    · obtain ⟨rfl, rfl⟩ := Prod.mk.inj (Option.some.inj h)
      exact .to hc hset trivial
  | suspendWorker a =>
    simp only [exec] at h
    split at h <;> obtain ⟨rfl, rfl⟩ := Prod.mk.inj (Option.some.inj h)
    · exact .dies hc hset
    · rename_i w hw
      exact good_suspendWorker hc hop w hw
  | allocStartup a q =>
    have hok : luck.ok = true := hcareful
    simp only [exec, hok, if_true] at h
    refine .useScheduler hc hset (fun y hy => ?_) h
    exact good_setScheduler hc (hset rfl) _ (headOk_one ⟨trivial, hop.2⟩)
  | switchTo w q => exact .useScheduler hc hset (fun y hy => good_switchTo hc (hset rfl) w hop) h
  | allocYieldEvent =>
    simp only [exec] at h
    split at h
    · obtain ⟨rfl, rfl⟩ := Prod.mk.inj (Option.some.inj h)
      exact .to hc hset (headOk_meets trivial rfl)
    split at h <;> obtain ⟨rfl, rfl⟩ := Prod.mk.inj (Option.some.inj h)
    · rename_i a q hw
      obtain ⟨hown, hq⟩ := hc.parent (hset rfl) hw
      exact .to hc hset (headOk_cons ⟨hown, fun p hp => Option.some.inj hp ▸ hq⟩ rfl)
    · exact .dies hc hset
  | allocEndEvent =>
    simp only [exec] at h
    split at h
    · obtain ⟨rfl, rfl⟩ := Prod.mk.inj (Option.some.inj h)
      exact .to hc hset trivial
    split at h <;> obtain ⟨rfl, rfl⟩ := Prod.mk.inj (Option.some.inj h)
    · rename_i a q hw
      obtain ⟨hown, hq⟩ := hc.parent (hset rfl) hw
      exact .to hc hset (headOk_one ⟨hown, fun p hp => Option.some.inj hp ▸ hq⟩)
    · split
      · exact .to hc hset trivial
      · exact .dies hc hset
    · exact .dies hc hset
  | removeWorker p =>
    obtain ⟨rfl, rfl⟩ := Prod.mk.inj (Option.some.inj h)
    exact good_removeWorker hc p
  -- queues
  | addLink k a c =>
    refine .useComplist hc hset (fun o ho => ?_) h
    refine good_contexts hc (hset rfl) o ho _ _ ?_ ?_
    · cases k <;> exact hop
    · cases k with
      | putBack => exact Or.inl rfl
      | enter | yield => exact Or.inr ⟨.worker, rfl⟩
  | eventAdd k q =>
    refine .useScheduler hc hset (fun y hy => ?_) h
    refine good_setScheduler hc (hset rfl) _ (headOk_one ?_)
    cases k <;> exact hop
  | takeTest d =>
    simp only [exec] at h
    split at h <;> obtain ⟨rfl, rfl⟩ := Prod.mk.inj (Option.some.inj h)
    · exact .dies hc hset
    · refine .to hc hset ?_
      split <;> cases d <;> exact headOk_one hop
  | takeWait d =>
    simp only [exec] at h
    split at h <;> obtain ⟨rfl, rfl⟩ := Prod.mk.inj (Option.some.inj h)
    · exact .dies hc hset
    · refine .to hc hset ?_
      split <;> cases d <;> exact headOk_one hop
  | takeBlocked d =>
    simp only [exec] at h
    split at h
    · obtain ⟨rfl, rfl⟩ := Prod.mk.inj (Option.some.inj h)
      exact .dies hc hset
    split at h
    · obtain ⟨rfl, rfl⟩ := Prod.mk.inj (Option.some.inj h)
      exact .to hc hset trivial
    split at h
    · cases h
    · obtain ⟨rfl, rfl⟩ := Prod.mk.inj (Option.some.inj h)
      refine .to hc hset ?_
      cases d <;> exact headOk_one hop
  | takeFirst d =>
    cases d with
    | contexts a q =>
      refine .useComplist hc hset (fun o ho => ?_) h
      split
      · exact .dies hc hset
      · exact good_contexts hc (hset rfl) o ho _ _ hop (Or.inl rfl)
    | events q =>
      refine .useScheduler hc hset (fun y hy => ?_) h
      exact good_setScheduler hc (hset rfl) _ (headOk_one hop)
  -- the error paths of an enter are not taken
  | putUnassigned _ | destroyLock _ | dropEvents _ | destroyUnlock _ | removeScheduler _ =>
    exact hop.1.elim

end Kernel

end LinuxUms
