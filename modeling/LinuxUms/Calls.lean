import LinuxUms.IdleLists

/-! What completion lists hold between calls, if the calls are those that the module takes for
granted: an executed worker is idle and linked nowhere, a batch is iterated through the
context it was last handed over with, and a list is deleted once. -/
namespace LinuxUms

open KernelList

/-- The checks that the module leaves to its users. -/
def Guarded (s : IoState) : IoAct → Prop
  | .exec _ w => ∀ x ∈ s.worker w, x.context.state = .idle ∧ listEmpty s.heap (.context w) = true
  | .nextContext _ c =>
    s.worker c = none ∨ listEmpty s.heap (.context c) = true ∨ (s.rings (.context c)).getD [] ≠ []
  | .enterWorker _ l _ _ | .enterScheduler _ l => s.list l ≠ none
  | .delete _ l => ∀ o ∈ s.list l, o.deleted = false
  | _ => True

instance (s : IoState) : DecidablePred (Guarded s)
  | .exec _ w => inferInstanceAs (Decidable (∀ x ∈ s.worker w, _))
  | .nextContext _ c => inferInstanceAs (Decidable (s.worker c = none ∨
      listEmpty s.heap (.context c) = true ∨ (s.rings (.context c)).getD [] ≠ []))
  | .enterWorker _ l _ _ | .enterScheduler _ l => inferInstanceAs (Decidable (s.list l ≠ none))
  | .delete _ l => inferInstanceAs (Decidable (∀ o ∈ s.list l, _))
  | .create _ _ | .dqcontext _ _ _ | .yield _ _ | .exit _ | .dqevent _ _ =>
    inferInstanceAs (Decidable True)

/-- Guarded calls, and no signal to a thread that its call has suspended. -/
def Undisturbed (s : IoState) : IoMove → Prop
  | .call act => Guarded s act
  | .signal t => s.asleep t = none

instance (s : IoState) : DecidablePred (Undisturbed s)
  | .call act => inferInstanceAs (Decidable (Guarded s act))
  | .signal t => inferInstanceAs (Decidable (s.asleep t = none))

/-- Who runs: a running worker has put its parent to sleep, and an idle one is asleep itself. -/
structure ThreadsOk (W : Pid → Option Worker) (S : Pid → Option Scheduler)
    (A : Pid → Option (Call Pid)) : Prop where
  running : ∀ c w, W c = some w → w.context.state = .running →
    ∃ p, w.context.parent = .context p ∧ A p = some (.exec c) ∧ S p ≠ none
  idle : ∀ c w, W c = some w → w.context.state = .idle →
    A c = some .enterWorker ∨ A c = some .yield
  exec : ∀ p c, A p = some (.exec c) → ∃ w, W c = some w ∧ w.context.state = .running ∧
    w.context.parent = .context p

namespace ThreadsOk

variable {W : Pid → Option Worker} {S : Pid → Option Scheduler} {A : Pid → Option (Call Pid)}
  {t p : Pid}

/-- A worker that makes a call is running, and its parent waits for it. -/
theorem caller (ok : ThreadsOk W S A) (w : Worker) (hw : W t = some w) (ht : A t = none) :
    w.context.state = .running ∧ ∃ p, w.context.parent = .context p ∧ A p = some (.exec t) ∧
      S p ≠ none := by
  cases hs : w.context.state with
  | running => exact ⟨rfl, ok.running t w hw hs⟩
  | idle =>
    rcases ok.idle t w hw hs with h | h <;> rw [ht] at h <;> cases h

/-- The record of a scheduler changes. -/
theorem setScheduler (ok : ThreadsOk W S A) (y : Scheduler) :
    ThreadsOk W (Function.update S p (some y)) A := by
  refine ⟨?_, ok.idle, ok.exec⟩
  intro c w hw hr
  obtain ⟨q, hq, ha, hs⟩ := ok.running c w hw hr
  refine ⟨q, hq, ha, ?_⟩
  by_cases hqp : q = p
  · simp [hqp]
  · rwa [Function.update_of_ne hqp]

/-- A new worker falls asleep. -/
theorem enter (ok : ThreadsOk W S A) (ht : A t = none) (hw : W t = none) (w : Worker)
    (hi : w.context.state = .idle) :
    ThreadsOk (Function.update W t (some w)) S (Function.update A t (some .enterWorker)) := by
  constructor
  · intro c v hv hr
    rcases update_some_cases hv with ⟨rfl, rfl⟩ | ⟨hc, hv⟩
    · rw [hi] at hr
      cases hr
    · obtain ⟨q, hq, ha, hs⟩ := ok.running c v hv hr
      have hqt : q ≠ t := by
        rintro rfl
        rw [ht] at ha
        cases ha
      exact ⟨q, hq, by rw [Function.update_of_ne hqt]; exact ha, hs⟩
  · intro c v hv hr
    by_cases hc : c = t
    · subst hc
      exact Or.inl (Function.update_self _ _ _)
    · rw [Function.update_of_ne hc] at hv ⊢
      exact ok.idle c v hv hr
  · intro q c ha
    obtain ⟨-, he⟩ | ⟨hq, ha⟩ := update_some_cases ha
    · cases he
    obtain ⟨v, hv, hr, hp⟩ := ok.exec q c ha
    have hc : c ≠ t := by
      rintro rfl
      rw [hw] at hv
      cases hv
    exact ⟨v, by rw [Function.update_of_ne hc]; exact hv, hr, hp⟩

/-- A scheduler falls asleep and an idle worker runs. -/
theorem switchTo (ok : ThreadsOk W S A) (ht : A t = none) (hs : S t ≠ none) (c : Pid) (w : Worker)
    (hw : W c = some w) (hi : w.context.state = .idle) :
    ThreadsOk (Function.update W c (some { w with
        context := { w.context with parent := .context t, state := .running } })) S
      (Function.update (Function.update A t (some (.exec c))) c none) := by
  -- the worker is asleep in its own call, so it is neither the caller nor anybody's parent
  have hsleep := ok.idle c w hw hi
  have htc : t ≠ c := by
    rintro rfl
    rcases hsleep with h | h <;> rw [ht] at h <;> cases h
  have hother (q d : Pid) (ha : A q = some (.exec d)) : q ≠ c ∧ q ≠ t := by
    constructor
    · rintro rfl
      rcases hsleep with h | h <;> rw [ha] at h <;> cases h
    · rintro rfl
      rw [ht] at ha
      cases ha
  constructor
  · intro d v hv hr
    rcases update_some_cases hv with ⟨rfl, rfl⟩ | ⟨hd, hv⟩
    · exact ⟨t, rfl, by rw [Function.update_of_ne htc, Function.update_self], hs⟩
    · obtain ⟨q, hq, ha, hsq⟩ := ok.running d v hv hr
      obtain ⟨hqc, hqt⟩ := hother q d ha
      exact ⟨q, hq, by rw [Function.update_of_ne hqc, Function.update_of_ne hqt]; exact ha, hsq⟩
  · intro d v hv hr
    rcases update_some_cases hv with ⟨rfl, rfl⟩ | ⟨hd, hdv⟩
    · cases hr
    · have hdt : d ≠ t := by
        rintro rfl
        rcases ok.idle d v hdv hr with h | h <;> rw [ht] at h <;> cases h
      rw [Function.update_of_ne hd, Function.update_of_ne hdt]
      exact ok.idle d v hdv hr
  · intro q d ha
    obtain ⟨hqc, ha⟩ := of_update_none ha
    by_cases hqt : q = t
    · subst hqt
      rw [Function.update_self, Option.some.injEq, Call.exec.injEq] at ha
      subst ha
      exact ⟨_, Function.update_self _ _ _, rfl, rfl⟩
    · rw [Function.update_of_ne hqt] at ha
      obtain ⟨v, hv, hr, hp⟩ := ok.exec q d ha
      have hd : d ≠ c := by
        rintro rfl
        rw [hw, Option.some.injEq] at hv
        rw [← hv, hi] at hr
        cases hr
      exact ⟨v, by rw [Function.update_of_ne hd]; exact hv, hr, hp⟩

/-- A running worker wakes its parent, and falls asleep in `x` or is gone. -/
theorem switchBack (ok : ThreadsOk W S A) (ht : A t = none) (v : Worker) (hv : W t = some v)
    (hp : v.context.parent = .context p) (x : Option Worker) (y : Option (Call Pid))
    (hx : ∀ w, x = some w → w.context.state = .idle ∧ y = some .yield)
    (hy : y = some .yield ∨ y = none) :
    ThreadsOk (Function.update W t x) S
      (Function.update (Function.update A t y) p none) := by
  obtain ⟨hrun, q, hq, hpa, -⟩ := ok.caller v hv ht
  obtain rfl : q = p := by
    rw [hp, Parent.context.injEq] at hq
    exact hq.symm
  have hqt : t ≠ q := by
    rintro rfl
    rw [ht] at hpa
    cases hpa
  constructor
  · intro c w hw hr
    have hc : c ≠ t := by
      rintro rfl
      rw [Function.update_self] at hw
      rw [(hx w hw).1] at hr
      cases hr
    rw [Function.update_of_ne hc] at hw
    obtain ⟨u, hu, ha, hs⟩ := ok.running c w hw hr
    -- somebody else's parent is neither the caller nor the one that is woken
    have hut : u ≠ t := by
      rintro rfl
      rw [ht] at ha
      cases ha
    have huq : u ≠ q := by
      rintro rfl
      rw [hpa, Option.some.injEq, Call.exec.injEq] at ha
      exact hc ha.symm
    exact ⟨u, hu, by rw [Function.update_of_ne huq, Function.update_of_ne hut]; exact ha, hs⟩
  · intro c w hw hr
    by_cases hc : c = t
    · subst hc
      rw [Function.update_self] at hw
      rw [Function.update_of_ne hqt, Function.update_self]
      exact Or.inr (hx w hw).2
    · rw [Function.update_of_ne hc] at hw
      have hcq : c ≠ q := by
        rintro rfl
        rcases ok.idle c w hw hr with h | h <;> rw [hpa] at h <;> cases h
      rw [Function.update_of_ne hcq, Function.update_of_ne hc]
      exact ok.idle c w hw hr
  · intro u c ha
    obtain ⟨huq, ha⟩ := of_update_none ha
    by_cases hut : u = t
    · subst hut
      rw [Function.update_self] at ha
      rcases hy with h | h <;> rw [ha] at h <;> cases h
    · rw [Function.update_of_ne hut] at ha
      obtain ⟨w, hw, hr, hwp⟩ := ok.exec u c ha
      have hc : c ≠ t := by
        rintro rfl
        rw [hv, Option.some.injEq] at hw
        rw [← hw, hp, Parent.context.injEq] at hwp
        exact huq hwp.symm
      exact ⟨w, by rw [Function.update_of_ne hc]; exact hw, hr, hwp⟩

end ThreadsOk

/-- The count of a list is exact, and every worker is attached to a list that exists. -/
structure HoldersOk (L : ListId → Option ListRec) (W : Pid → Option Worker) : Prop where
  count : ∀ l o, L l = some o →
    o.refcount = (if o.deleted then 0 else 1) + (o.holders.length : ℤ) ∧ 1 ≤ o.refcount
  holder : ∀ c w, W c = some w → ∃ l o, w.complist = some l ∧ L l = some o ∧
    .worker c ∈ o.holders

namespace HoldersOk

variable {L : ListId → Option ListRec} {W : Pid → Option Worker} {t : Pid} {l : ListId}

/-- A change to a list that keeps its workers attached. -/
theorem setList (ok : HoldersOk L W) (o o' : ListRec) (hl : L l = some o)
    (hcount : o'.refcount = (if o'.deleted then 0 else 1) + (o'.holders.length : ℤ) ∧
      1 ≤ o'.refcount)
    (hkeep : ∀ c, W c ≠ none → .worker c ∈ o.holders → .worker c ∈ o'.holders) :
    HoldersOk (Function.update L l (some o')) W := by
  constructor
  · intro m p hp
    rcases update_some_cases hp with ⟨rfl, rfl⟩ | ⟨-, hp⟩
    · exact hcount
    · exact ok.count m p hp
  · intro c w hw
    obtain ⟨m, p, hm, hp, hmem⟩ := ok.holder c w hw
    by_cases hml : m = l
    · subst hml
      rw [hl, Option.some.injEq] at hp
      subst hp
      exact ⟨m, o', hm, Function.update_self _ _ _, hkeep c (by simp [hw]) hmem⟩
    · exact ⟨m, p, hm, by rw [Function.update_of_ne hml]; exact hp, hmem⟩

theorem create (ok : HoldersOk L W) (hl : L l = none) :
    HoldersOk (Function.update L l (some ⟨1, false, []⟩)) W := by
  constructor
  · intro m p hp
    rcases update_some_cases hp with ⟨rfl, rfl⟩ | ⟨-, hp⟩
    · simp
    · exact ok.count m p hp
  · intro c w hw
    obtain ⟨m, p, hm, hp, hmem⟩ := ok.holder c w hw
    have hml : m ≠ l := by
      rintro rfl
      rw [hl] at hp
      cases hp
    exact ⟨m, p, hm, by rw [Function.update_of_ne hml]; exact hp, hmem⟩

/-- A worker that a list counts. -/
theorem setWorker (ok : HoldersOk L W) (o : ListRec) (hl : L l = some o)
    (ht : .worker t ∈ o.holders) (w : Worker) (hw : w.complist = some l) :
    HoldersOk L (Function.update W t (some w)) := by
  refine ⟨ok.count, fun c u hu => ?_⟩
  rcases update_some_cases hu with ⟨rfl, rfl⟩ | ⟨-, hu⟩
  · exact ⟨l, o, hw, hl, ht⟩
  · exact ok.holder c u hu

theorem removeWorker (ok : HoldersOk L W) : HoldersOk L (Function.update W t none) := by
  exact ⟨ok.count, fun c u hu => ok.holder c u (of_update_none hu).2⟩

/-- A list is freed to which no worker is attached. -/
theorem release (ok : HoldersOk L W) (hno : ∀ c w, W c = some w → w.complist ≠ some l) :
    HoldersOk (Function.update L l none) W := by
  constructor
  · exact fun m p hp => ok.count m p (of_update_none hp).2
  · intro c w hw
    obtain ⟨m, p, hm, hp, hmem⟩ := ok.holder c w hw
    have hml : m ≠ l := by
      rintro rfl
      exact hno c w hw hm
    exact ⟨m, p, hm, by rw [Function.update_of_ne hml]; exact hp, hmem⟩

end HoldersOk

namespace IoState

structure Inv (s : IoState) : Prop where
  rings : RingsOk s.heap s.rings s.list s.worker
  threads : ThreadsOk s.worker s.scheduler s.asleep
  holders : HoldersOk s.list s.worker
  fault : s.fault = false

theorem inv_init : init.Inv := by
  refine ⟨⟨⟨?_, ?_, ?_, ?_⟩, ?_, ?_, ?_, ?_, ?_, ?_⟩, ⟨?_, ?_, ?_⟩, ⟨?_, ?_⟩, rfl⟩ <;> simp [init]

variable {s : IoState} {t : Pid} {l : ListId}

theorem Inv.create (hi : s.Inv) (hl : s.list l = none) : (s.createUmsComplist l).Inv :=
  ⟨hi.rings.create hl _, hi.threads, hi.holders.create hl, hi.fault⟩

/-- A put that leaves the count exact and the live workers attached. -/
theorem Inv.put (hi : s.Inv) (o o' : ListRec) (hl : s.list l = some o)
    (hcount : o'.refcount - 1 = (if o'.deleted then 0 else 1) + (o'.holders.length : ℤ))
    (hkeep : ∀ c, s.worker c ≠ none → .worker c ∈ o.holders → .worker c ∈ o'.holders) :
    (s.putUmsComplist l o').Inv := by
  rw [putUmsComplist]
  split
  · rename_i hz
    have hnil : o'.holders = [] := by
      rw [hz] at hcount
      apply List.eq_nil_of_length_eq_zero
      split at hcount <;> omega
    have hno (c : Pid) (w : Worker) (hw : s.worker c = some w) : w.complist ≠ some l := by
      intro he
      obtain ⟨m, p, hm, hp, hmem⟩ := hi.holders.holder c w hw
      obtain rfl : l = m := Option.some.inj (he.symm.trans hm)
      obtain rfl : o = p := Option.some.inj (hl.symm.trans hp)
      have hmem' := hkeep c (by simp [hw]) hmem
      rw [hnil] at hmem'
      cases hmem'
    exact ⟨hi.rings.release hno, hi.threads, hi.holders.release hno, hi.fault⟩
  · rename_i hz
    refine ⟨hi.rings.setList (by simp [hl]) _, hi.threads,
      hi.holders.setList o _ hl ⟨hcount, ?_⟩ hkeep, hi.fault⟩
    simp only
    split at hcount <;> omega

theorem Inv.delete (hi : s.Inv) (hok : ∀ o ∈ s.list l, o.deleted = false) :
    (s.umsComplistDelete l).Inv := by
  rw [umsComplistDelete]
  split
  · exact hi
  · rename_i o ho
    have hd := hok o ho
    have hc := (hi.holders.count l o ho).1
    rw [hd] at hc
    refine hi.put o _ ho ?_ (fun _ _ h => h)
    simp at hc ⊢
    omega

/-- The insertion of a worker that goes to sleep. Its node is loose in the rings `r`, which are
those of the state except that the node may have been allocated anew. -/
theorem Inv.addTail (r : Node → Option (List Node)) (hr : RingsOk s.heap r s.list s.worker)
    (hloose : Loose r (.context t))
    (he : Function.update r (.context t) none = Function.update s.rings (.context t) none)
    (w : Worker) (hl : s.list l ≠ none) (hwl : w.complist = some l)
    (hwi : w.context.state = .idle)
    (ht : ThreadsOk (Function.update s.worker t (some w)) s.scheduler s.asleep)
    (hh : HoldersOk s.list (Function.update s.worker t (some w))) (hf : s.fault = false) :
    ({ s with worker := Function.update s.worker t (some w) }.addTail l t).Inv := by
  have hhead : r (.head l) = s.rings (.head l) := by
    have := congrFun he (.head l)
    rwa [Function.update_of_ne (by simp), Function.update_of_ne (by simp)] at this
  have hne : s.rings (.head l) ≠ none := by
    rw [← hhead]
    exact fun he => hl ((hr.head l).mp he)
  obtain ⟨q, hq⟩ := Option.ne_none_iff_exists'.mp hne
  have hq' := hhead.trans hq
  obtain ⟨h', hadd, -⟩ := hr.family.listAddTail (.head l) (.context t) q hq' rfl hloose (by simp)
  have hins := hr.insert q hq' hloose w hwl hwi h' hadd
  rw [he] at hins
  have hop : umsCompletionListAdd s.heap l t complistAddTail = some h' := hadd
  simp only [IoState.addTail, hop, hq, Option.getD_some]
  exact ⟨hins, ht, hh, hf⟩

theorem Inv.enterWorker (hi : s.Inv) (ha : s.asleep t = none) (hl : s.list l ≠ none)
    (node : Links Node) (zero : Bool) : (s.enterUmsWorkerMode t l node zero).Inv := by
  rw [enterUmsWorkerMode]
  split
  · exact hi
  · rename_i hw
    have hw : s.worker t = none := by simpa using hw
    obtain ⟨o, ho⟩ := Option.ne_none_iff_exists'.mp hl
    simp only [ho]
    obtain ⟨hr, hloose⟩ := hi.rings.renew hw node
    obtain ⟨hc, h1⟩ := hi.holders.count l o ho
    -- the list after `get_ums_complist`, with the worker counted but not yet in the table
    have hget : HoldersOk (Function.update s.list l (some { o with
        refcount := o.refcount + 1, holders := .worker t :: o.holders })) s.worker := by
      refine hi.holders.setList o _ ho ⟨?_, ?_⟩ (fun _ _ h => List.mem_cons_of_mem _ h)
      · simp only [List.length_cons]
        omega
      · simp only
        omega
    refine Inv.addTail (s := { s.getUmsComplist l o (.worker t) with
      heap := Function.update s.heap (.context t) node
      asleep := Function.update s.asleep t (some .enterWorker) }) _ (hr.setList hl _) hloose
      (Function.update_idem _ _ _) _ ?_ rfl rfl ?_ ?_ hi.fault
    · simp [getUmsComplist]
    · exact hi.threads.enter ha hw _ rfl
    · exact hget.setWorker _ (Function.update_self _ _ _) List.mem_cons_self _ rfl

theorem Inv.enterScheduler (hi : s.Inv) (hl : s.list l ≠ none) :
    (s.enterUmsSchedulerMode t l).Inv := by
  rw [enterUmsSchedulerMode]
  split
  · exact hi
  · obtain ⟨o, ho⟩ := Option.ne_none_iff_exists'.mp hl
    simp only [ho]
    obtain ⟨hc, h1⟩ := hi.holders.count l o ho
    refine ⟨hi.rings.setList hl _, hi.threads.setScheduler _, ?_, hi.fault⟩
    refine hi.holders.setList o _ ho ⟨?_, ?_⟩ (fun _ _ h => List.mem_cons_of_mem _ h)
    · simp only [List.length_cons]
      omega
    · simp only
      omega

theorem Inv.yield (hi : s.Inv) (ha : s.asleep t = none) (args : UserPtr) :
    (s.umsWorkerYield t args).Inv := by
  cases hw : s.worker t with
  | none => simpa [umsWorkerYield, hw] using hi
  | some w =>
    obtain ⟨⟨st, pa, n⟩, cl⟩ := w
    obtain ⟨hrun, p, hp, hpa, hps⟩ := hi.threads.caller _ hw ha
    obtain ⟨m, o, hm, ho, hmem⟩ := hi.holders.holder t _ hw
    obtain ⟨y, hy⟩ := Option.ne_none_iff_exists'.mp hps
    simp only at hrun hp hm
    subst hrun hp hm
    simp only [umsWorkerYield, hw, hy, ho]
    have hself := hi.rings.running t _ hw rfl
    refine Inv.addTail (s := { s with
        scheduler := _
        asleep := Function.update (Function.update s.asleep t (some .yield)) p none })
      s.rings hi.rings (hi.rings.alone hself) rfl _ (by simp [ho]) rfl rfl ?_ ?_ hi.fault
    · exact (hi.threads.switchBack ha _ hw rfl _ _ (fun w hw => by
        rw [Option.some.injEq] at hw
        exact ⟨hw ▸ rfl, rfl⟩) (Or.inl rfl)).setScheduler _
    · exact hi.holders.setWorker o ho hmem _ rfl

theorem Inv.exit (hi : s.Inv) (ha : s.asleep t = none) : (s.umsWorkerEnd t).Inv := by
  cases hw : s.worker t with
  | none => simpa [umsWorkerEnd, hw] using hi
  | some w =>
    obtain ⟨⟨st, pa, n⟩, cl⟩ := w
    obtain ⟨hrun, p, hp, hpa, hps⟩ := hi.threads.caller _ hw ha
    obtain ⟨m, o, hm, ho, hmem⟩ := hi.holders.holder t _ hw
    obtain ⟨y, hy⟩ := Option.ne_none_iff_exists'.mp hps
    simp only at hrun hp hm
    subst hrun hp hm
    simp only [umsWorkerEnd, hw, hy, ho]
    have hself := hi.rings.running t _ hw rfl
    -- the scheduler is woken and the worker gone, but its reference is still counted
    have hgone : ({ s.notify p y (.threadTerminated t) y.context.parent with
        worker := Function.update s.worker t none } : IoState).Inv := by
      refine ⟨hi.rings.setWorker hself none, ?_, hi.holders.removeWorker, hi.fault⟩
      have hth := (hi.threads.switchBack ha _ hw rfl none none (fun _ h => by cases h)
        (Or.inr rfl)).setScheduler (p := p) { y with
          eventQ := enqueueUmsSchedEvent y.eventQ (.threadTerminated t) eventAddTail
          context := { y.context with state := .running } }
      have hsame : Function.update s.asleep t none = s.asleep := by
        rw [← ha, Function.update_eq_self]
      rw [hsame] at hth
      exact hth
    refine hgone.put o _ ho ?_ ?_
    · have hc := (hi.holders.count m o ho).1
      have hpos := List.length_pos_of_mem hmem
      simp only [List.length_erase_of_mem hmem]
      omega
    · intro c hc hcm
      refine (List.mem_erase_of_ne ?_).mpr hcm
      intro he
      rw [ContextRef.worker.injEq] at he
      subst he
      simp at hc

theorem Inv.exec (hi : s.Inv) (ha : s.asleep t = none) (w : Pid)
    (hok : ∀ x ∈ s.worker w, x.context.state = .idle ∧ listEmpty s.heap (.context w) = true) :
    (s.execUmsContext t w).Inv := by
  rw [execUmsContext]
  split
  · rename_i x y hx hy
    obtain ⟨hidle, he⟩ := hok x hx
    have hself := hi.rings.selfLinked x hx he
    obtain ⟨m, o, hm, ho, hmem⟩ := hi.holders.holder w x hx
    refine ⟨hi.rings.setWorker hself _, ?_, hi.holders.setWorker o ho hmem _ hm, hi.fault⟩
    exact (hi.threads.switchTo ha (by simp [hy]) w x hx hidle).setScheduler _
  · exact hi

/-- The ring behind a sentinel that is not empty, and its first member. -/
theorem Inv.first (hi : s.Inv) (a : Node) (k : List Node) (hk : s.rings a = some k)
    (hne : listEmpty s.heap a = false) :
    ∃ c w m h', k = .context c :: m ∧ s.worker c = some w ∧ w.context.state = .idle ∧
      takeFirst s.heap a = some (.context c, h') := by
  have hring := hi.rings.family.ring a k hk rfl
  obtain ⟨x, m, rfl⟩ : ∃ x m, k = x :: m := by
    apply List.exists_cons_of_ne_nil
    intro he
    rw [(listEmpty_ring _ _ k hring).mpr he] at hne
    cases hne
  obtain ⟨c, w, rfl, hw, hidle⟩ := hi.rings.member a _ hk x List.mem_cons_self
  obtain ⟨h', hh, -⟩ := hi.rings.family.takeFirst a (.context c) m hk rfl
  exact ⟨c, w, m, h', rfl, hw, hidle, hh⟩

theorem Inv.takeBatch (hi : s.Inv) (hl : s.list l ≠ none)
    (hne : listEmpty s.heap (.head l) = false) (copied : Bool) : (s.takeBatch l copied).Inv := by
  obtain ⟨q, hq⟩ := Option.ne_none_iff_exists'.mp (fun he => hl ((hi.rings.head l).mp he))
  obtain ⟨c, w, m, h', rfl, hw, hidle, htake⟩ := hi.first _ q hq hne
  obtain ⟨c', w', he, hw', hwl, -⟩ := hi.rings.queue l _ hq (.context c) List.mem_cons_self
  rw [Node.context.injEq] at he
  subst he
  obtain rfl : w = w' := Option.some.inj (hw.symm.trans hw')
  have hr := hi.rings.take (.head l) c m hq h' htake
  have hop : doDequeueUmsComplistContext s.heap l = some (.context c, h') := htake
  simp only [IoState.takeBatch, hop, hq, Option.getD_some, List.tail_cons]
  cases copied with
  | true => exact ⟨hr, hi.threads, hi.holders, hi.fault⟩
  | false =>
    have hc : Function.update (Function.update s.rings (.head l) (some [])) (.context c) (some m)
        (.context c) = some m := Function.update_self _ _ _
    have hhead : Function.update (Function.update s.rings (.head l) (some [])) (.context c) (some m)
        (.head l) = some [] := by
      rw [Function.update_of_ne (by simp), Function.update_self]
    obtain ⟨h₂, hadd, -⟩ := ring_listAdd h' (.head l) (.context c) []
      (hr.family.ring _ _ hhead rfl) (by simp)
    have hop' : umsCompletionListAdd h' l c complistAddHead = some h₂ := hadd
    simp only [hop', Bool.false_eq_true, if_false]
    exact ⟨hr.putBack c m hc hhead w hw hwl hidle h₂ hadd, hi.threads, hi.holders, hi.fault⟩

theorem Inv.nextContext (hi : s.Inv) (c : Pid)
    (hok : Guarded s (.nextContext t c)) : (s.umsComplistNextContext c).Inv := by
  rw [umsComplistNextContext]
  split
  · exact hi
  · rename_i hw
    by_cases he : listEmpty s.heap (.context c) = true
    · simp only [LinuxUms.umsComplistNextContext, he, if_true]
      exact hi
    · have hne := (hok.resolve_left (by simpa using hw)).resolve_left he
      cases hk : s.rings (.context c) with
      | none =>
        rw [hk] at hne
        exact absurd rfl hne
      | some k =>
        obtain ⟨d, w, m, h', rfl, -, -, htake⟩ := hi.first _ k hk (Bool.not_eq_true _ ▸ he)
        have hr := hi.rings.take (.context c) d m hk h' htake
        simp only [LinuxUms.umsComplistNextContext, he, htake, Option.map_some]
        exact ⟨hr, hi.threads, hi.holders, hi.fault⟩

theorem Inv.step (hi : s.Inv) (act : IoAct) (hok : Guarded s act) (s' : IoState)
    (h : s.step act = some s') : s'.Inv := by
  unfold IoState.step at h
  split at h
  · cases h
  · rename_i hawake
    have ha : s.asleep act.caller = none := not_not.mp hawake
    cases act with
    | create t l =>
      simp only at h
      split at h
      · rename_i hl
        exact Option.some.inj h ▸ hi.create hl.2
      · cases h
    | delete t l => exact Option.some.inj h ▸ hi.delete hok
    | enterWorker t l node zero => exact Option.some.inj h ▸ hi.enterWorker ha hok node zero
    | enterScheduler t l => exact Option.some.inj h ▸ hi.enterScheduler hok
    | dqcontext t l copied =>
      simp only [umsComplistDqcontext] at h
      split at h
      · exact Option.some.inj h ▸ hi
      · rename_i hsome
        split at h
        · cases h
        · rename_i hne
          have hl : s.list l ≠ none := by
            intro he
            simp [he] at hsome
          exact Option.some.inj h ▸ hi.takeBatch hl (Bool.not_eq_true _ ▸ hne) copied
    | nextContext t c => exact Option.some.inj h ▸ hi.nextContext c hok
    | exec t w => exact Option.some.inj h ▸ hi.exec ha w hok
    | yield t args => exact Option.some.inj h ▸ hi.yield ha args
    | exit t => exact Option.some.inj h ▸ hi.exit ha
    | dqevent t copied =>
      simp only [umsSchedDqevent] at h
      split at h
      · exact Option.some.inj h ▸ hi
      · cases h
      · rw [← Option.some.inj h]
        exact ⟨hi.rings, hi.threads.setScheduler _, hi.holders, hi.fault⟩

theorem Inv.move (hi : s.Inv) (mv : IoMove) (hok : Undisturbed s mv) (s' : IoState)
    (h : s.move mv = some s') : s'.Inv := by
  cases mv with
  | call act => exact hi.step act hok s' h
  | signal t =>
    obtain rfl := Option.some.inj h
    rw [signal_of_awake hok]
    exact hi

end IoState

/-- What completion lists are to hold between calls, and whom a worker runs for. -/
structure IoState.IdleOnce (s : IoState) : Prop where
  -- distinctness of the members is part of `Ring`
  ring : ∀ l, s.list l ≠ none → ∃ ms : List Pid, Ring s.heap (.head l) (ms.map .context) ∧
    ∀ c ∈ ms, ∃ w, s.worker c = some w ∧ w.complist = some l ∧ w.context.state = .idle
  unlinked : ∀ c l ms, s.list l ≠ none → Ring s.heap (.head l) ms →
    (∀ w, s.worker c = some w → w.context.state = .running) → .context c ∉ ms
  once : ∀ p q w, s.asleep p = some (.exec w) → s.asleep q = some (.exec w) → p = q

/-- The members of a completion list as pids. -/
theorem RingsOk.pids {h : Heap Node} {r : Node → Option (List Node)}
    {L : ListId → Option ListRec} {W : Pid → Option Worker} (ok : RingsOk h r L W) (l : ListId)
    (q : List Node) (hq : r (.head l) = some q) :
    ∃ ms : List Pid, q = ms.map .context ∧
      ∀ c ∈ ms, ∃ w, W c = some w ∧ w.complist = some l ∧ w.context.state = .idle := by
  have hall := ok.queue l q hq
  clear hq
  induction q with
  | nil => exact ⟨[], rfl, fun _ hc => by cases hc⟩
  | cons x q ih =>
    obtain ⟨c, w, rfl, hw⟩ := hall x List.mem_cons_self
    obtain ⟨ms, rfl, hms⟩ := ih (fun y hy => hall y (List.mem_cons_of_mem _ hy))
    refine ⟨c :: ms, rfl, fun d hd => ?_⟩
    rcases List.mem_cons.mp hd with rfl | hd
    · exact ⟨w, hw⟩
    · exact hms d hd

/-- If every call is guarded and no signal ends a suspension, every completion list holds live idle
workers that are attached to it, once each, no worker is run for two schedulers, and no call
faults. -/
theorem lists_hold_idle_workers (s : IoState)
    (hr : Transition.Reach IoState.move Undisturbed IoState.init s) :
    s.IdleOnce ∧ s.fault = false := by
  have hi : s.Inv := hr.invariant IoState.Inv IoState.inv_init
    (fun _ mv s' hi hok h => hi.move mv hok s' h)
  have hlists (l : ListId) (hl : s.list l ≠ none) : ∃ ms : List Pid,
      Ring s.heap (.head l) (ms.map .context) ∧
        ∀ c ∈ ms, ∃ w, s.worker c = some w ∧ w.complist = some l ∧ w.context.state = .idle := by
    obtain ⟨q, hq⟩ := Option.ne_none_iff_exists'.mp (fun he => hl ((hi.rings.head l).mp he))
    obtain ⟨ms, rfl, hms⟩ := hi.rings.pids l q hq
    exact ⟨ms, hi.rings.family.ring _ _ hq rfl, hms⟩
  refine ⟨⟨hlists, ?_, ?_⟩, hi.fault⟩
  · intro c l ms hl hring hrun hm
    obtain ⟨cs, hring', hcs⟩ := hlists l hl
    rw [ring_unique s.heap (.head l) ms _ hring hring'] at hm
    obtain ⟨d, hd, he⟩ := List.mem_map.mp hm
    rw [Node.context.injEq] at he
    subst he
    obtain ⟨w, hw, -, hidle⟩ := hcs d hd
    rw [hrun w hw] at hidle
    cases hidle
  · intro p q w hp hq
    obtain ⟨x, hx, -, hxp⟩ := hi.threads.exec p w hp
    obtain ⟨y, hy, -, hyq⟩ := hi.threads.exec q w hq
    obtain rfl : x = y := Option.some.inj (hx.symm.trans hy)
    rw [hxp, Parent.context.injEq] at hyq
    exact hyq

/-- Workers 1 and 2 queue in list 1, and schedulers 10 and 11 register there. -/
def twoWorkers : List IoAct :=
  [.create 10 1, .enterWorker 1 1 ⟨.null, .null⟩ true, .enterWorker 2 1 ⟨.null, .null⟩ true,
    .enterScheduler 10 1, .enterScheduler 11 1]

/-- A batch is dequeued and drained, its first worker executed, and the worker yields. -/
theorem lists_hold_idle_workers_sample :
    ∃ s, Transition.Reach IoState.move Undisturbed IoState.init s ∧
      ((s.rings (.head 1) = some [.context 1] ∧ s.asleep 11 = some (.exec 2)) ∧
        (s.worker 1).map (fun w => w.context.state) = some .idle ∧
        (s.worker 2).map (fun w => w.context.state) = some .running) ∧ s.IdleOnce := by
  obtain ⟨s, hr, hs⟩ := Transition.Reach.exists_of_run IoState.move Undisturbed IoState.init
    (twoWorkers.map .call ++ [.call (.dqcontext 10 1 true), .call (.nextContext 10 1),
      .call (.nextContext 10 2), .call (.exec 10 1), .call (.yield 1 0), .call (.exec 11 2),
      .signal 10])
    (fun s => (s.rings (.head 1) = some [.context 1] ∧ s.asleep 11 = some (.exec 2)) ∧
      (s.worker 1).map (fun w => w.context.state) = some .idle ∧
      (s.worker 2).map (fun w => w.context.state) = some .running) (by decide +kernel)
  exact ⟨s, hr, hs, (lists_hold_idle_workers s hr).1⟩

/-- `exec_ums_context` looks a worker up by pid and nothing else. Executed while it is queued,
worker 1 runs as the first entry of list 1, is there still when it has ended, and can be run
for two schedulers at once. -/
theorem exec_runs_queued_worker :
    (∃ s, Transition.Reach IoState.move (fun _ _ => True) IoState.init s ∧
      (s.list 1).isSome = true ∧ (s.heap (.head 1)).next = .node (.context 1) ∧
      (s.worker 1).map (fun w => w.context.state) = some .running) ∧
    (∃ s, Transition.Reach IoState.move (fun _ _ => True) IoState.init s ∧
      (s.list 1).isSome = true ∧ (s.heap (.head 1)).next = .node (.context 1) ∧
      (s.worker 1).isNone = true) ∧
    ∃ s, Transition.Reach IoState.move (fun _ _ => True) IoState.init s ∧
      s.asleep 10 = some (.exec 1) ∧ s.asleep 11 = some (.exec 1) := by
  refine ⟨?_, ?_, ?_⟩
  · exact Transition.Reach.exists_of_run IoState.move (fun _ _ => True)
      IoState.init (twoWorkers.map .call ++ [.call (.exec 10 1)])
      _ (by decide +kernel)
  · exact Transition.Reach.exists_of_run IoState.move (fun _ _ => True)
      IoState.init (twoWorkers.map .call ++ [.call (.exec 10 1), .call (.exit 1)])
      _ (by decide +kernel)
  · exact Transition.Reach.exists_of_run IoState.move (fun _ _ => True)
      IoState.init (twoWorkers.map .call ++ [.call (.exec 10 1), .call (.exec 11 1)])
      _ (by decide +kernel)

end LinuxUms
