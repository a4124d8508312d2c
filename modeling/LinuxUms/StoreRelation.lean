import LinuxUms.DeviceLists
import LinuxUms.StoreDevice

/-! The device with single loads and stores beside the device in which the list operations are
single steps: what is equal in both at any time, how far a thread can be in the one when it is at a
place in the other, and what a step of one thread leaves to the others. An insertion happens when
its lock is given back, a removal when the lock is taken, and the removal from a batch, which has no
lock, at its end. -/
namespace LinuxUms

open KernelList StoreProgram Handoff

/-- The places in the code of a completion list or a batch. -/
def Pc.onList : Pc → Bool
  | .enterAdd _ | .yieldAdd | .dqTest _ | .dqWait _ | .nextContext _ => true
  | _ => false

namespace Device

/-- The parts of a device that no list operation in progress has to do with. -/
structure Same (s d : Device) : Prop where
  worker : d.worker = s.worker
  scheduler : d.scheduler = s.scheduler
  ready : d.ready = s.ready
  hist : d.hist = s.hist
  fault : d.fault = s.fault

/-- The two devices do the same to the place of `t` and to one task. -/
structure Alike (s d : Device) (t : Pid) (s' d' : Device) : Prop where
  same : Same s' d'
  pc : ∃ c, s'.pc = Function.update s.pc t c ∧ d'.pc = Function.update d.pc t c
  task : (s'.task = s.task ∧ d'.task = d.task) ∨ ∃ u v, (u = t ∨ v = .running) ∧
    s'.task = Function.update s.task u v ∧ d'.task = Function.update d.task u v
  batches : s'.batches = s.batches ∧ d'.batches = d.batches

variable {s d s' : Device} {t : Pid}

theorem Same.log (h : Same s d) (o : Obs Pid ListId Event) : Same (s.log o) (d.log o) :=
  ⟨h.worker, h.scheduler, h.ready, congrArg (o :: ·) h.hist, h.fault⟩

theorem Same.crash (h : Same s d) : Same s.crash d.crash :=
  ⟨h.worker, h.scheduler, h.ready, h.hist, rfl⟩

theorem Same.setWorker (h : Same s d) (p : Pid) (w : Option Worker) :
    Same (s.setWorker p w) (d.setWorker p w) := by
  refine ⟨?_, h.scheduler, h.ready, h.hist, h.fault⟩
  rw [Device.setWorker, h.worker]
  rfl

theorem Same.setScheduler (h : Same s d) (p : Pid) (c : Scheduler) :
    Same (s.setScheduler p c) (d.setScheduler p c) := by
  refine ⟨h.worker, ?_, h.ready, h.hist, h.fault⟩
  rw [Device.setScheduler, h.scheduler]
  rfl

theorem modifyContext_same (h : Same s d) (c : ContextRef) (f : UmsContext → UmsContext) :
    Same (s.modifyContext c f) (d.modifyContext c f) := by
  cases c with
  | worker p =>
    cases hw : s.worker p with
    | none =>
      have hd : d.worker p = none := by rw [h.worker, hw]
      rw [modifyContext, modifyContext, hw, hd]
      exact h.crash
    | some w =>
      have hd : d.worker p = some w := by rw [h.worker, hw]
      rw [modifyContext_worker f hw, modifyContext_worker f hd]
      exact h.setWorker p _
  | scheduler p =>
    cases hw : s.scheduler p with
    | none =>
      have hd : d.scheduler p = none := by rw [h.scheduler, hw]
      rw [modifyContext, modifyContext, hw, hd]
      exact h.crash
    | some w =>
      have hd : d.scheduler p = some w := by rw [h.scheduler, hw]
      rw [modifyContext_scheduler f hw, modifyContext_scheduler f hd]
      exact h.setScheduler p _

/-- Thread `t` goes on to `c` in both. -/
theorem Alike.go {s₁ d₁ : Device} (h : Same s₁ d₁) (c : Pc) (hs : s₁.pc = s.pc) (hd : d₁.pc = d.pc)
    (hts : s₁.task = s.task) (htd : d₁.task = d.task) (hbs : s₁.batches = s.batches)
    (hbd : d₁.batches = d.batches) : Alike s d t (s₁.setPc t c) (d₁.setPc t c) where
  same := ⟨h.worker, h.scheduler, h.ready, h.hist, h.fault⟩
  pc := ⟨c, by rw [← hs]; rfl, by rw [← hd]; rfl⟩
  task := Or.inl ⟨hts, htd⟩
  batches := ⟨hbs, hbd⟩

theorem Alike.ret (h : Same s d) (c : Call Pid) (r : Result) :
    Alike s d t (s.ret t c r) (d.ret t c r) :=
  .go (h.log _) .user rfl rfl rfl rfl rfl rfl

theorem Alike.crash (h : Same s d) (hpc : d.pc t = s.pc t) : Alike s d t s.crash d.crash where
  same := h.crash
  pc := by
    refine ⟨s.pc t, (Function.update_eq_self t s.pc).symm, ?_⟩
    rw [← hpc]
    exact (Function.update_eq_self t d.pc).symm
  task := Or.inl ⟨rfl, rfl⟩
  batches := ⟨rfl, rfl⟩

/-- Thread `t` makes itself sleep, or wakes itself, and goes on to `c`. -/
theorem Alike.setTask (h : Same s d) (v : TaskState) (c : Pc) :
    Alike s d t ((s.setTask t v).setPc t c) ((d.setTask t v).setPc t c) where
  same := ⟨h.worker, h.scheduler, h.ready, h.hist, h.fault⟩
  pc := ⟨c, rfl, rfl⟩
  task := Or.inr ⟨t, v, Or.inl rfl, rfl, rfl⟩
  batches := ⟨rfl, rfl⟩

/-- An event is queued to `p`, and `t` goes on to `c`. -/
theorem Alike.post (h : Same s d) (p : Pid) (e : Event) (o : Obs Pid ListId Event) (c : Pc) :
    Alike s d t (((s.postEvent p e).log o).setPc t c) (((d.postEvent p e).log o).setPc t c) := by
  cases hc : s.scheduler p with
  | none =>
    have hd : d.scheduler p = none := by rw [h.scheduler, hc]
    rw [postEvent, postEvent, hc, hd]
    exact .go (h.crash.log o) c rfl rfl rfl rfl rfl rfl
  | some x =>
    have hd : d.scheduler p = some x := by rw [h.scheduler, hc]
    rw [postEvent, postEvent, hc, hd]
    exact .go ((h.setScheduler p _).log o) c rfl rfl rfl rfl rfl rfl

theorem postEvent_heap (s : Device) (p : Pid) (e : Event) : (s.postEvent p e).heap = s.heap := by
  unfold postEvent
  split <;> rfl

theorem Alike.switching (h : Same s d) (k : Switching) (op : SwitchOp) (ops : List SwitchOp) :
    Alike s d t (s.stepSwitch t k op ops) (d.stepSwitch t k op ops) := by
  have hs := beside_switchOp s (k.contexts t).1 (k.contexts t).2 op
  have hd := beside_switchOp d (k.contexts t).1 (k.contexts t).2 op
  have hsrc : (k.contexts t).1.task = t := by cases k <;> rfl
  have hsame : Same (s.switchOp (k.contexts t).1 (k.contexts t).2 op)
      (d.switchOp (k.contexts t).1 (k.contexts t).2 op) := by
    cases op with
    | assignParent | incSwitches | setIdle | setRunning =>
      rw [switchOp, switchOp]
      exact modifyContext_same h _ _
    | setInterruptible | wakeUp => exact ⟨h.worker, h.scheduler, h.ready, h.hist, h.fault⟩
  constructor
  case same =>
    refine ⟨hsame.worker, hsame.scheduler, hsame.ready, ?_, hsame.fault⟩
    show (if op = .wakeUp then _ else _) = (if op = .wakeUp then _ else _)
    rw [hsame.hist]
  case pc =>
    exact ⟨_, congrArg (Function.update · t _) hs.pc, congrArg (Function.update · t _) hd.pc⟩
  case batches => exact ⟨hs.batches, hd.batches⟩
  case task =>
    cases op with
    | assignParent | incSwitches | setIdle | setRunning =>
      exact Or.inl ⟨modifyContext_task s _ _, modifyContext_task d _ _⟩
    | setInterruptible => exact Or.inr ⟨_, .interruptible, Or.inl hsrc, rfl, rfl⟩
    | wakeUp => exact Or.inr ⟨_, .running, Or.inr rfl, rfl, rfl⟩

/-- A step outside the code of the lists is the same in both, and changes no list node. -/
theorem advance_alike (h : Same s d) (hpc : d.pc t = s.pc t) (ht : d.task t = s.task t) {c : Pc}
    (hc : c.onList = false) (hs : s.advance t c = some s') :
    ∃ d', d.advance t c = some d' ∧ Alike s d t s' d' ∧ s'.heap = s.heap ∧ d'.heap = d.heap := by
  have hcrash : Alike s d t s.crash d.crash := .crash h hpc
  cases c with
  | user => cases hs
  | enterAdd | yieldAdd | dqTest | dqWait | nextContext => cases hc
  | enterAttach l =>
    rw [advance] at hs ⊢
    rw [h.worker]
    cases hw : s.worker t with
    | none =>
      rw [hw] at hs
      cases hs
      exact ⟨_, rfl, hcrash, rfl, rfl⟩
    | some w =>
      rw [hw] at hs
      cases hs
      exact ⟨_, rfl, .go (h.setWorker t _) _ rfl rfl rfl rfl rfl rfl, rfl, rfl⟩
  | switching k ops =>
    cases ops with
    | nil => cases hs
    | cons op ops =>
      cases hs
      have hsb := beside_switchOp s (k.contexts t).1 (k.contexts t).2 op
      have hdb := beside_switchOp d (k.contexts t).1 (k.contexts t).2 op
      exact ⟨_, rfl, .switching h k op ops, hsb.heap, hdb.heap⟩
  | schedule k =>
    rw [advance] at hs ⊢
    rw [ht]
    split at hs
    · rename_i hti
      cases hs
      rw [if_pos hti]
      exact ⟨_, rfl, .go h _ rfl rfl rfl rfl rfl rfl, rfl, rfl⟩
    · rename_i hti
      cases hs
      rw [if_neg hti]
      exact ⟨_, rfl, .ret h _ _, rfl, rfl⟩
  | blocked k =>
    rw [advance] at hs ⊢
    rw [ht]
    split at hs
    · rename_i hti
      cases hs
      rw [if_pos hti]
      exact ⟨_, rfl, .ret h _ _, rfl, rfl⟩
    · cases hs
  | schedAttach l =>
    rw [advance] at hs ⊢
    rw [h.scheduler]
    cases hw : s.scheduler t with
    | none =>
      rw [hw] at hs
      cases hs
      exact ⟨_, rfl, hcrash, rfl, rfl⟩
    | some w =>
      rw [hw] at hs
      cases hs
      exact ⟨_, rfl, .go (h.setScheduler t _) _ rfl rfl rfl rfl rfl rfl, rfl, rfl⟩
  | startup | yieldPost p args | exitPost p =>
    cases hs
    exact ⟨_, rfl, .post h _ _ _ _, postEvent_heap s _ _, postEvent_heap d _ _⟩
  | startReturn | dqReturn | evReturn =>
    cases hs
    exact ⟨_, rfl, .ret h _ _, rfl, rfl⟩
  | destroy =>
    cases hs
    exact ⟨_, rfl, .go ((h.setWorker t none).log _) .user rfl rfl rfl rfl rfl rfl, rfl, rfl⟩
  | yieldParent args =>
    rw [advance] at hs ⊢
    rw [h.worker]
    cases hw : s.worker t with
    | none =>
      rw [hw] at hs
      cases hs
      exact ⟨_, rfl, hcrash, rfl, rfl⟩
    | some w =>
      obtain ⟨⟨st, parent, n⟩, l⟩ := w
      rw [hw] at hs
      cases parent with
      | context p =>
        cases hs
        exact ⟨_, rfl, .go h _ rfl rfl rfl rfl rfl rfl, rfl, rfl⟩
      | null | junk =>
        cases hs
        exact ⟨_, rfl, hcrash, rfl, rfl⟩
  | exitParent =>
    rw [advance] at hs ⊢
    rw [h.worker]
    cases hw : s.worker t with
    | none =>
      rw [hw] at hs
      cases hs
      exact ⟨_, rfl, hcrash, rfl, rfl⟩
    | some w =>
      obtain ⟨⟨st, parent, n⟩, l⟩ := w
      rw [hw] at hs
      cases parent with
      | context p =>
        cases hs
        exact ⟨_, rfl, .go h _ rfl rfl rfl rfl rfl rfl, rfl, rfl⟩
      | null =>
        cases hs
        exact ⟨_, rfl, .ret h _ _, rfl, rfl⟩
      | junk =>
        cases hs
        exact ⟨_, rfl, hcrash, rfl, rfl⟩
  | evTest =>
    rw [advance] at hs ⊢
    rw [h.scheduler]
    cases hw : s.scheduler t with
    | none =>
      rw [hw] at hs
      cases hs
      exact ⟨_, rfl, hcrash, rfl, rfl⟩
    | some w =>
      obtain ⟨x, l, es⟩ := w
      rw [hw] at hs
      cases es with
      | nil =>
        cases hs
        exact ⟨_, rfl, .setTask h _ _, rfl, rfl⟩
      | cons e es =>
        cases hs
        exact ⟨_, rfl, .go (h.setScheduler t _) _ rfl rfl rfl rfl rfl rfl, rfl, rfl⟩
  | evWait =>
    rw [advance] at hs ⊢
    rw [h.scheduler, ht]
    cases hw : s.scheduler t with
    | none =>
      rw [hw] at hs
      cases hs
      exact ⟨_, rfl, hcrash, rfl, rfl⟩
    | some w =>
      obtain ⟨x, l, es⟩ := w
      rw [hw] at hs
      cases es with
      | nil =>
        replace hs : (if s.task t = .running then some (s.ret t .dqevent .erestartsys) else none) =
          some s' := hs
        split at hs
        · rename_i hti
          cases hs
          exact ⟨_, if_pos hti, .ret h _ _, rfl, rfl⟩
        · cases hs
      | cons e es =>
        cases hs
        exact ⟨_, rfl, .setTask h _ _, rfl, rfl⟩

/-- A call begins in the same way in both. The node of a worker that enters is new. -/
theorem call_alike (h : Same s d) {a : DeviceAct} (hs : s.call a = some s') :
    ∃ d', d.call a = some d' ∧ Alike s d a.caller s' d' ∧
      ((s'.heap = s.heap ∧ d'.heap = d.heap) ∨ ∃ v, s.worker a.caller = none ∧
        s'.heap = Function.update s.heap (.context a.caller) v ∧
        d'.heap = Function.update d.heap (.context a.caller) v) := by
  have hret (c : Call Pid) (r : Result) : Alike s d a.caller (s.ret a.caller c r)
      (d.ret a.caller c r) := .ret h c r
  have hgo (c : Pc) : Alike s d a.caller (s.setPc a.caller c) (d.setPc a.caller c) :=
    .go h c rfl rfl rfl rfl rfl rfl
  cases a with
  | enterWorker t l node zero =>
    rw [call] at hs ⊢
    rw [h.worker]
    split at hs
    · rename_i hw
      cases hs
      exact ⟨_, if_pos hw, hret _ _, Or.inl ⟨rfl, rfl⟩⟩
    · rename_i hw
      cases hs
      refine ⟨_, if_neg hw, .go (Same.setWorker ?_ t _) _ rfl rfl rfl rfl rfl rfl,
        Or.inr ⟨node, Option.not_isSome_iff_eq_none.mp hw, rfl, rfl⟩⟩
      exact ⟨rfl, h.scheduler, h.ready, h.hist, h.fault⟩
  | enterScheduler t l =>
    rw [call] at hs ⊢
    rw [h.scheduler]
    split at hs
    · rename_i hw
      cases hs
      exact ⟨_, if_pos hw, hret _ _, Or.inl ⟨rfl, rfl⟩⟩
    · rename_i hw
      cases hs
      exact ⟨_, if_neg hw, .go (h.setScheduler t _) _ rfl rfl rfl rfl rfl rfl, Or.inl ⟨rfl, rfl⟩⟩
  | exec t w =>
    rw [call] at hs ⊢
    rw [h.worker, h.scheduler]
    split at hs
    · rename_i hw
      cases hs
      refine ⟨_, if_pos hw, .go (Same.log ?_ _) _ rfl rfl rfl rfl rfl rfl, Or.inl ⟨rfl, rfl⟩⟩
      refine ⟨rfl, rfl, ?_, h.hist, h.fault⟩
      rw [h.ready]
    · rename_i hw
      cases hs
      exact ⟨_, if_neg hw, hret _ _, Or.inl ⟨rfl, rfl⟩⟩
  | dqcontext t l | dqevent t =>
    rw [call] at hs ⊢
    rw [h.scheduler]
    split at hs
    · rename_i hw
      cases hs
      exact ⟨_, if_pos hw, hgo _, Or.inl ⟨rfl, rfl⟩⟩
    · rename_i hw
      cases hs
      exact ⟨_, if_neg hw, hret _ _, Or.inl ⟨rfl, rfl⟩⟩
  | nextContext t c | yield t args | exit t =>
    rw [call] at hs ⊢
    rw [h.worker]
    split at hs
    · rename_i hw
      cases hs
      exact ⟨_, if_pos hw, hgo _, Or.inl ⟨rfl, rfl⟩⟩
    · rename_i hw
      cases hs
      exact ⟨_, if_neg hw, hret _ _, Or.inl ⟨rfl, rfl⟩⟩
  | run | signal => cases hs

end Device

/-- The nodes that thread `t` may touch: those of a list whose lock it has, those of its batches,
and its own while it is on its way into a list. -/
def Owns (lock : ListId → Option Pid) (d : Device) (t : Pid) (n : Node) : Prop :=
  (∃ l ms, lock l = some t ∧ d.Linked (.head l) ms ∧ n ∈ .head l :: ms.map Node.context) ∨
    (∃ c ms, IsHandle c (d.batches t) ∧ d.Linked (.context c) ms ∧
      n ∈ .context c :: ms.map Node.context) ∨
    (d.pc t).adds = true ∧ n = .context t

namespace Device

variable {d d' : Device} {lock : ListId → Option Pid} {t u : Pid} {n : Node}
  {σ : Handoff Pid ListId Event}

theorem unlisted_of_adds (hA : Abs d σ) (hI : σ.Inv) (h : (d.pc t).adds = true) :
    (σ.place t).unlisted = true := by
  have hphase := hA.phase t
  generalize d.pc t = c at h hphase
  cases c with
  | enterAdd l =>
    rw [(hI.entering t).mpr hphase]
    rfl
  | yieldAdd =>
    rw [(hI.leaving t).mpr hphase]
    rfl
  | _ => cases h

/-- What thread `t` may touch is in a ring of its own, or in no ring. -/
theorem owns_cases (hA : Abs d σ) (hI : σ.Inv) (h : Owns lock d t n) :
    (∃ l k, lock l = some t ∧ linked σ (.head l) = some k ∧ n ∈ .head l :: k) ∨
      (∃ c k, σ.place c = .handed t ∧ linked σ (.context c) = some k ∧ n ∈ .context c :: k) ∨
      n = .context t ∧ ∀ a k, linked σ a = some k → n ∉ a :: k := by
  rcases h with ⟨l, ms, hl, hms, hn⟩ | ⟨c, ms, hc, hms, hn⟩ | ⟨hadds, rfl⟩
  · exact Or.inl ⟨l, _, hl, linked_head hA hms, hn⟩
  · have hhanded : σ.place c = .handed t := hI.handed_of_handle t c (by rw [hA.batches]; exact hc)
    refine Or.inr (Or.inl ⟨c, _, hhanded, ?_, hn⟩)
    rw [hms.rest_eq hA hhanded]
    exact linked_of_handed c t hhanded
  · exact Or.inr (Or.inr ⟨rfl, not_mem_linked hI t (unlisted_of_adds hA hI hadds)⟩)

/-- No node is touched by two threads. -/
theorem owns_unique (hr : DeviceReachable d) (ht : Owns lock d t n) (hu : Owns lock d u n) :
    t = u := by
  obtain ⟨σ, hI, -, hA⟩ := reachable_handoff hr
  rcases owns_cases hA hI ht with ⟨l, k, hl, hk, hn⟩ | ⟨c, k, hc, hk, hn⟩ | ⟨hnt, hout⟩ <;>
    rcases owns_cases hA hI hu with ⟨l', k', hl', hk', hn'⟩ | ⟨c', k', hc', hk', hn'⟩ | ⟨hnu, hout'⟩
  · have he : l = l' := Node.head.inj (hA.rings.disjoint _ _ _ _ n hk hk' hn hn')
    rw [he, hl'] at hl
    exact (Option.some.inj hl).symm
  · cases hA.rings.disjoint _ _ _ _ n hk hk' hn hn'
  · exact absurd hn (hout' _ _ hk)
  · cases hA.rings.disjoint _ _ _ _ n hk hk' hn hn'
  · have he : c = c' := Node.context.inj (hA.rings.disjoint _ _ _ _ n hk hk' hn hn')
    rw [he, hc'] at hc
    exact (Place.handed.inj hc).symm
  · exact absurd hn (hout' _ _ hk)
  · exact absurd hn' (hout _ _ hk')
  · exact absurd hn' (hout _ _ hk')
  · exact Node.context.inj (hnt.symm.trans hnu)

/-- The list that the next step of `t` may change. -/
def changes (d : Device) (t : Pid) : Option ListId :=
  match d.pc t with
  | .enterAdd l | .dqTest l => some l
  | .yieldAdd => (d.worker t).bind Worker.complist
  | _ => none

/-- What thread `t` leaves to the others: all lists but `L`, and their batches. -/
structure Others (L : Option ListId) (d : Device) (t : Pid) (d' : Device) : Prop where
  own : Own d t d'
  head : ∀ l ms, L ≠ some l → d.Linked (.head l) ms → d'.Linked (.head l) ms
  handle : ∀ u c ms, u ≠ t → IsHandle c (d.batches u) → d.Linked (.context c) ms →
    d'.Linked (.context c) ms

theorem Own.trans {d₁ : Device} (h : Own d t d₁) (h' : Own d₁ t d') : Own d t d' where
  pc u hu := (h'.pc u hu).trans (h.pc u hu)
  batches u hu := (h'.batches u hu).trans (h.batches u hu)
  ready u hu := (h'.ready u hu).trans (h.ready u hu)
  scheduler u hu := (h'.scheduler u hu).trans (h.scheduler u hu)
  complist u hu := (h'.complist u hu).trans (h.complist u hu)
  hist u hu := ⟨(h'.hist u hu).1.trans (h.hist u hu).1, (h'.hist u hu).2.trans (h.hist u hu).2⟩

theorem Others.refl (L : Option ListId) (d : Device) (t : Pid) : Others L d t d :=
  ⟨.refl d t, fun _ _ _ h => h, fun _ _ _ _ _ h => h⟩

theorem Others.after {L : Option ListId} {d₁ : Device} (h : Others none d t d₁)
    (h' : Others L d₁ t d') : Others L d t d' where
  own := h.own.trans h'.own
  head l ms hl hms := h'.head l ms hl (h.head l ms (by simp) hms)
  handle u c ms hu hc hms := by
    apply h'.handle u c ms hu _ (h.handle u c ms hu hc hms)
    rw [h.own.batches u hu]
    exact hc

theorem changes_of_adds (hA : Abs d σ) {l : ListId} (hpc : (d.pc t).adds = true)
    (hl : (d.worker t).map Worker.complist = some (some l)) : d.changes t = some l := by
  obtain ⟨w, hw, hwl⟩ := Option.map_eq_some_iff.mp hl
  have hok := hA.pc t
  unfold changes
  generalize d.pc t = c at hpc hok
  cases c with
  | enterAdd l' =>
    obtain ⟨-, w', hw', hl', -⟩ := hok
    obtain rfl : w = w' := Option.some.inj (hw.symm.trans hw')
    exact hl'.symm.trans hwl
  | yieldAdd =>
    show (d.worker t).bind Worker.complist = some l
    rw [hw]
    exact hwl
  | _ => cases hpc

theorem others_of_move (hr : DeviceReachable d) (hm : d.Move t (d.pc t) d') :
    Others (d.changes t) d t d' := by
  obtain ⟨σ, hI, -, hA⟩ := reachable_handoff hr
  have hl := relink_of_move hA hI hm
  refine ⟨hm.own, fun l ms hne hms => ?_, fun u c ms hu hc hms =>
    hl.handle hA hI (Or.inl hu) hc hms⟩
  have hold := linked_head hA hms
  cases hl with
  | keep _ hf | close _ _ _ hf => exact linked_of_family hf hold
  | add l' hpc hout hlist hf =>
    apply linked_of_family hf
    rw [changes_of_adds hA hpc hlist] at hne
    have hll : l ≠ l' := fun he => hne (by rw [he])
    rw [Function.update_of_ne (by simpa using hll), Function.update_of_ne (by simp), hold]
  | take l' c cs hpc hq hf =>
    apply linked_of_family hf
    have hll : l ≠ l' := by
      rintro rfl
      apply hne
      rw [changes, hpc]
    rw [Function.update_of_ne (by simp), Function.update_of_ne (by simpa using hll), hold]
  | next c e ds hpc hr hf =>
    apply linked_of_family hf
    rw [Function.update_of_ne (by simp), Function.update_of_ne (by simp), hold]

theorem others_of_call (hr : DeviceReachable d) {a : DeviceAct} (hs : d.call a = some d') :
    Others none d a.caller d' := by
  obtain ⟨σ, hI, -, hA⟩ := reachable_handoff hr
  obtain ⟨hf, -, -⟩ := call_keeps_lists hA hI hs
  refine ⟨own_call hs, fun l ms _ hms => linked_of_family hf (linked_head hA hms), ?_⟩
  intro u c ms hu hc hms
  have hhanded : σ.place c = .handed u := hI.handed_of_handle u c (by rw [hA.batches]; exact hc)
  apply linked_of_family hf
  rw [hms.rest_eq hA hhanded]
  exact linked_of_handed c u hhanded

end Device

def ListPlace.prog : ListPlace → ListProg Node
  | .body p => p
  | _ => .ret none

/-- Inside `wait_event_interruptible`. -/
def ListPlace.waits : ListPlace → Bool
  | .first | .prepare | .test _ | .sleep | .finish => true
  | .out | .body _ | .wake => false

/-- The places there at which the thread can be in `wait_q`. -/
def ListPlace.inQueue : ListPlace → Bool
  | .prepare | .test false | .sleep | .finish => true
  | _ => false

/-- The places there at which the thread has been awake since it last looked. -/
def ListPlace.awake : ListPlace → Bool
  | .first | .prepare | .test true => true
  | _ => false

/-- The places there between `set_current_state` and the return of `schedule()`. -/
def ListPlace.rests : ListPlace → Bool
  | .test false | .sleep => true
  | _ => false

/-- How far thread `t` is in the device `s` with loads and stores, and where it is in the device
`d`. The program `q` is what is left to do there. -/
inductive ThreadAt (s : StoreDevice) (d : Device) (t : Pid) :
    Set (Cell Node) → ListProg Node → ListPlace → Pc → Prop where
  | out (c : Pc) (hpc : d.pc t = c) (hb : d.batches t = s.dev.batches t)
      (hrun : ∀ l, c = .dqWait l → s.dev.task t = .running) :
      ThreadAt s d t ∅ (.ret none) .out c
  -- an insertion has not happened until the lock is given back
  | add (F : Set (Cell Node)) (p : ListProg Node) (c : Pc) (l : ListId) (hc : c.adds = true)
      (hlist : d.changes t = some l) (hl : s.lock l = some t)
      (hhead : ∀ k, (Node.head k, Field.next) ∈ F → k = l ∧ d.Linked (.head l) [])
      (hpc : d.pc t = c) (hb : d.batches t = s.dev.batches t) :
      ThreadAt s d t F (umsCompletionListAddProg l t complistAddTail) (.body p) c
  -- a removal has happened as soon as the lock is taken
  | take (F : Set (Cell Node)) (p : ListProg Node) (c : Pc) (l : ListId) (x : Pid)
      (hc : c = .dqTest l ∨ c = .dqWait l) (hl : s.lock l = some t)
      (hhead : ∀ k, (Node.head k, Field.next) ∈ F → k = l) (hnil : d.Linked (.head l) [])
      (hpc : d.pc t = .dqReturn) (hb : d.batches t = [x] :: s.dev.batches t) :
      ThreadAt s d t F (.ret (some (.context x))) (.body p) c
  | empty (F : Set (Cell Node)) (p : ListProg Node) (c : Pc) (l : ListId)
      (hc : c = .dqTest l ∨ c = .dqWait l) (hl : s.lock l = some t)
      (hhead : ∀ k, (Node.head k, Field.next) ∈ F → k = l) (hnil : d.Linked (.head l) [])
      (hpc : d.pc t = c) (hb : d.batches t = s.dev.batches t) (hrun : s.dev.task t = .running) :
      ThreadAt s d t F (.ret none) (.body p) c
  | next (F : Set (Cell Node)) (p : ListProg Node) (x : Pid)
      (hhead : ∀ k, (Node.head k, Field.next) ∉ F) (hpc : d.pc t = .nextContext x)
      (hb : d.batches t = s.dev.batches t) :
      ThreadAt s d t F (ListProg.pop (.context x)) (.body p) (.nextContext x)
  | wake (c : Pc) (l : ListId) (hc : c.adds = true)
      (hlist : (d.worker t).map Worker.complist = some (some l)) (hpc : d.pc t = c.added)
      (hb : d.batches t = s.dev.batches t) : ThreadAt s d t ∅ (.ret none) .wake c
  -- all the time in the wait
  | wait (x : ListPlace) (l : ListId) (hx : x.waits = true) (hpc : d.pc t = .dqWait l)
      (hb : d.batches t = s.dev.batches t) (hrun : x.awake = true → s.dev.task t = .running)
      (hsig : x = .test true → s.signalled t = true) :
      ThreadAt s d t ∅ (.ret none) x (.dqWait l)

/-- Thread `u` has put itself in list `l` and is about to wake those who wait. -/
def Waking (s : StoreDevice) (u : Pid) (l : ListId) : Prop :=
  s.place u = .wake ∧ s.dev.listOf u = some l

/-- The device `d`, in which the list operations are single steps, stands for `s`. -/
structure StoreSim (s : StoreDevice) (d : Device) (F : Pid → Set (Cell Node))
    (q : Pid → ListProg Node) : Prop where
  dev : DeviceReachable d
  pool : Pool F (fun t => (s.place t).prog) q (cells s.dev.heap) (cells d.heap)
  same : Device.Same s.dev d
  owned : ∀ t c, c ∈ F t → Owns s.lock d t c.1
  thread : ∀ t, ThreadAt s d t (F t) (q t) (s.place t) (s.dev.pc t)
  task : ∀ t, (∀ l, d.pc t ≠ .dqWait l) → d.task t = s.dev.task t
  signal : ∀ t, s.signalled t = true →
    (∃ l, s.dev.pc t = .dqWait l) ∧ ((∃ l, d.pc t = .dqWait l) → d.task t = .running)
  waiters : ∀ l t, t ∈ s.waiters l → (s.place t).inQueue = true ∧ s.dev.pc t = .dqWait l
  nodup : ∀ l, (s.waiters l).Nodup
  -- who is about to sleep can be woken, and does not sleep while there is a context to take
  queued : ∀ t l, (s.place t).rests = true → s.dev.pc t = .dqWait l →
    s.dev.task t = .interruptible → t ∈ s.waiters l
  asleep : ∀ t l, s.place t = .sleep → s.dev.pc t = .dqWait l → s.dev.task t = .interruptible →
    d.Linked (.head l) [] ∨ ∃ u, Waking s u l

section Frame

variable {s s' : StoreDevice} {d d' : Device} {F F' : Pid → Set (Cell Node)}
  {q q' : Pid → ListProg Node} {t u : Pid}

/-- What a step of `t` leaves to the others in the device with loads and stores. -/
structure Leaves (s : StoreDevice) (t : Pid) (s' : StoreDevice) : Prop where
  pc : ∀ u, u ≠ t → s'.dev.pc u = s.dev.pc u
  batches : ∀ u, u ≠ t → s'.dev.batches u = s.dev.batches u
  place : ∀ u, u ≠ t → s'.place u = s.place u
  lock : ∀ u, u ≠ t → ∀ l, s.lock l = some u → s'.lock l = some u
  task : ∀ u, u ≠ t → s.dev.task u = .running → s'.dev.task u = .running
  signalled : ∀ u, u ≠ t → s'.signalled u = s.signalled u

/-- What is known of thread `t` itself after its step. -/
structure SelfAt (s : StoreDevice) (d : Device) (t : Pid) (G : Set (Cell Node))
    (g : ListProg Node) : Prop where
  thread : ThreadAt s d t G g (s.place t) (s.dev.pc t)
  owned : ∀ c ∈ G, Owns s.lock d t c.1
  task : (∀ l, d.pc t ≠ .dqWait l) → d.task t = s.dev.task t
  signal : s.signalled t = true →
    (∃ l, s.dev.pc t = .dqWait l) ∧ ((∃ l, d.pc t = .dqWait l) → d.task t = .running)
  waiters : ∀ l, t ∈ s.waiters l → (s.place t).inQueue = true ∧ s.dev.pc t = .dqWait l
  rest : (s.place t).rests = true → ∀ l, s.dev.pc t = .dqWait l →
    s.dev.task t = .interruptible → t ∈ s.waiters l ∧ (s.place t = .sleep → d.Linked (.head l) [])

/-- A place at which the thread does not rest. -/
theorem not_rests_goto {P : Prop} {x : ListPlace} (hx : x.rests = false)
    (h : ((s.goto t x).place t).rests = true) : P := by
  replace h : (Function.update s.place t x t).rests = true := h
  rw [Function.update_self, hx] at h
  cases h

theorem Device.Own.changes (h : Device.Own d t d') (hu : u ≠ t) : d'.changes u = d.changes u := by
  have hjoin (w : Option Worker) : w.bind Worker.complist = (w.map Worker.complist).join := by
    cases w <;> rfl
  rw [Device.changes, Device.changes, h.pc u hu, hjoin, hjoin, h.complist u hu]

theorem ThreadAt.frame {G : Set (Cell Node)} {g : ListProg Node} {x : ListPlace} {c : Pc}
    (h : ThreadAt s d u G g x c) (hu : u ≠ t) (hs : Leaves s t s') {L : Option ListId}
    (hd : Device.Others L d t d') (hL : ∀ l, s.lock l = some u → L ≠ some l) :
    ThreadAt s' d' u G g x c := by
  have hpc' {c : Pc} (hpc : d.pc u = c) : d'.pc u = c := (hd.own.pc u hu).trans hpc
  have hb' {b : List (List Pid)} (hb : d.batches u = b ++ s.dev.batches u) :
      d'.batches u = b ++ s'.dev.batches u := by
    rw [hd.own.batches u hu, hs.batches u hu, hb]
  cases h with
  | out c hpc hb hrun =>
    exact .out c (hpc' hpc) (hb' (b := []) hb) (fun l hc => hs.task u hu (hrun l hc))
  | add G p c l hc hlist hl hhead hpc hb =>
    exact .add G p c l hc ((hd.own.changes hu).trans hlist) (hs.lock u hu l hl)
      (fun k hk => (hhead k hk).imp_right (hd.head l [] (hL l hl))) (hpc' hpc) (hb' (b := []) hb)
  | take G p c l x hc hl hhead hnil hpc hb =>
    exact .take G p c l x hc (hs.lock u hu l hl) hhead (hd.head l [] (hL l hl) hnil) (hpc' hpc)
      (hb' (b := [[x]]) hb)
  | empty G p c l hc hl hhead hnil hpc hb hrun =>
    exact .empty G p c l hc (hs.lock u hu l hl) hhead (hd.head l [] (hL l hl) hnil) (hpc' hpc)
      (hb' (b := []) hb) (hs.task u hu hrun)
  | next G p x hhead hpc hb => exact .next G p x hhead (hpc' hpc) (hb' (b := []) hb)
  | wake c l hc hlist hpc hb =>
    exact .wake c l hc ((hd.own.complist u hu).trans hlist) (hpc' hpc) (hb' (b := []) hb)
  | wait x l hx hpc hb hrun hsig =>
    refine .wait x l hx (hpc' hpc) (hb' (b := []) hb) (fun hx' => hs.task u hu (hrun hx')) ?_
    intro hx'
    rw [hs.signalled u hu]
    exact hsig hx'

/-- The programs do not say where a thread is. -/
theorem ThreadAt.body {G : Set (Cell Node)} {g p : ListProg Node} {c : Pc}
    (h : ThreadAt s d t G g (.body p) c) (p' : ListProg Node) (hl : s'.lock = s.lock)
    (ht : s'.dev.task t = s.dev.task t) (hb : s'.dev.batches t = s.dev.batches t) :
    ThreadAt s' d t G g (.body p') c := by
  cases h with
  | add G p c l hc hlist hlock hnil hpc hb' =>
    exact .add G p' c l hc hlist (by rw [hl]; exact hlock) hnil hpc (by rw [hb]; exact hb')
  | take G p c l x hc hlock hhead hnil hpc hb' =>
    exact .take G p' c l x hc (by rw [hl]; exact hlock) hhead hnil hpc (by rw [hb]; exact hb')
  | empty G p c l hc hlock hhead hnil hpc hb' hrun =>
    exact .empty G p' c l hc (by rw [hl]; exact hlock) hhead hnil hpc (by rw [hb]; exact hb')
      (by rw [ht]; exact hrun)
  | next G p x hhead hpc hb' => exact .next G p' x hhead hpc (by rw [hb]; exact hb')
  | wait x l hx => cases hx

theorem Owns.frame {n : Node} (h : Owns s.lock d u n) (hu : u ≠ t) (hs : Leaves s t s')
    {L : Option ListId} (hd : Device.Others L d t d') (hL : ∀ l, s.lock l = some u → L ≠ some l) :
    Owns s'.lock d' u n := by
  rcases h with ⟨l, ms, hl, hms, hn⟩ | ⟨c, ms, hc, hms, hn⟩ | ⟨hadds, hn⟩
  · exact Or.inl ⟨l, ms, hs.lock u hu l hl, hd.head l ms (hL l hl) hms, hn⟩
  · refine Or.inr (Or.inl ⟨c, ms, ?_, hd.handle u c ms hu hc hms, hn⟩)
    rw [hd.own.batches u hu]
    exact hc
  · refine Or.inr (Or.inr ⟨?_, hn⟩)
    rw [hd.own.pc u hu]
    exact hadds

theorem Waking.frame {l : ListId} (h : Waking s u l) (hu : u ≠ t) (hs : Leaves s t s')
    (hd : Device.Own d t d') (hsame : Device.Same s.dev d) (hsame' : Device.Same s'.dev d') :
    Waking s' u l := by
  have hjoin (w : Option Worker) : w.bind Worker.complist = (w.map Worker.complist).join := by
    cases w <;> rfl
  refine ⟨(hs.place u hu).trans h.1, ?_⟩
  rw [← h.2, Device.listOf, Device.listOf, hs.pc u hu, ← hsame.worker, ← hsame'.worker, hjoin,
    hjoin, hd.complist u hu]

/-- What a step of `t` may do to the queues: only `t` comes to a queue, and who leaves is awake. -/
structure Queues (s : StoreDevice) (t : Pid) (s' : StoreDevice) : Prop where
  nodup : ∀ l, (s'.waiters l).Nodup
  old : ∀ l u, u ≠ t → u ∈ s'.waiters l → u ∈ s.waiters l
  stay : ∀ l u, u ≠ t → u ∈ s.waiters l → s'.dev.task u = .interruptible → u ∈ s'.waiters l
  wake : ∀ l u, Waking s t l → u ≠ t → u ∈ s.waiters l → s'.dev.task u = .running

/-- A step of thread `t`, which comes to `G` and `g`. -/
theorem StoreSim.of_step (h : StoreSim s d F q) (s' : StoreDevice) (G : Set (Cell Node))
    (g : ListProg Node) (hs : Leaves s t s') {L : Option ListId} (hd : Device.Others L d t d')
    (hL : ∀ l u, u ≠ t → s.lock l = some u → L ≠ some l)
    (hL' : ∀ l, L = some l → d'.Linked (.head l) [] ∨ Waking s' t l) (hdev : DeviceReachable d')
    (hpool : Pool (Function.update F t G) (fun u => (s'.place u).prog) (Function.update q t g)
      (cells s'.dev.heap) (cells d'.heap))
    (hsame : Device.Same s'.dev d') (hself : SelfAt s' d' t G g)
    (htask : ∀ u, u ≠ t → (d'.task u = d.task u ∨ d'.task u = .running) ∧
      ((∀ l, d.pc u ≠ .dqWait l) → d.task u = s.dev.task u → d'.task u = s'.dev.task u))
    (hwait : Queues s t s') :
    StoreSim s' d' (Function.update F t G) (Function.update q t g) := by
  have hawake (u : Pid) (hu : u ≠ t) (hi : s'.dev.task u = .interruptible) :
      s.dev.task u = .interruptible := by
    cases hr : s.dev.task u with
    | interruptible => rfl
    | running =>
      rw [hs.task u hu hr] at hi
      cases hi
  constructor
  case dev => exact hdev
  case pool => exact hpool
  case same => exact hsame
  case nodup => exact hwait.nodup
  case owned =>
    intro u c hc
    by_cases hu : u = t
    · subst hu
      rw [Function.update_self] at hc
      exact hself.owned c hc
    · rw [Function.update_of_ne hu] at hc
      exact (h.owned u c hc).frame hu hs hd (fun l => hL l u hu)
  case thread =>
    intro u
    by_cases hu : u = t
    · subst hu
      rw [Function.update_self, Function.update_self]
      exact hself.thread
    · rw [Function.update_of_ne hu, Function.update_of_ne hu, hs.place u hu, hs.pc u hu]
      exact (h.thread u).frame hu hs hd (fun l => hL l u hu)
  case task =>
    intro u hu'
    by_cases hu : u = t
    · subst hu
      exact hself.task hu'
    · rw [hd.own.pc u hu] at hu'
      exact (htask u hu).2 hu' (h.task u hu')
  case signal =>
    intro u hu'
    by_cases hu : u = t
    · subst hu
      exact hself.signal hu'
    · rw [hs.signalled u hu] at hu'
      obtain ⟨hpc, hrun⟩ := h.signal u hu'
      rw [hs.pc u hu, hd.own.pc u hu]
      refine ⟨hpc, fun hl => ?_⟩
      rcases (htask u hu).1 with he | he
      · rw [he]
        exact hrun hl
      · exact he
  case waiters =>
    intro l u hu'
    by_cases hu : u = t
    · subst hu
      exact hself.waiters l hu'
    · rw [hs.place u hu, hs.pc u hu]
      exact h.waiters l u (hwait.old l u hu hu')
  case queued =>
    intro u l hx hpc hi
    by_cases hu : u = t
    · subst hu
      exact (hself.rest hx l hpc hi).1
    · rw [hs.place u hu] at hx
      rw [hs.pc u hu] at hpc
      exact hwait.stay l u hu (h.queued u l hx hpc (hawake u hu hi)) hi
  case asleep =>
    intro u l hx hpc hi
    by_cases hu : u = t
    · subst hu
      exact Or.inl ((hself.rest (by rw [hx]; rfl) l hpc hi).2 hx)
    · rw [hs.place u hu] at hx
      rw [hs.pc u hu] at hpc
      have hq := h.queued u l (by rw [hx]; rfl) hpc (hawake u hu hi)
      rcases h.asleep u l hx hpc (hawake u hu hi) with hnil | ⟨v, hv⟩
      · by_cases hl : L = some l
        · exact (hL' l hl).imp_right fun hw => ⟨t, hw⟩
        · exact Or.inl (hd.head l [] hl hnil)
      · by_cases hvt : v = t
        · subst hvt
          rw [hwait.wake l u hv hu hq] at hi
          cases hi
        · exact Or.inr ⟨v, hv.frame hvt hs hd.own h.same hsame⟩

/-- Most steps leave the queues alone. -/
theorem Queues.keep (h : StoreSim s d F q) (ht : s.place t ≠ .wake) (hw : s'.waiters = s.waiters) :
    Queues s t s' where
  nodup l := by rw [hw]; exact h.nodup l
  old l u _ hu := by rw [← hw]; exact hu
  stay l u _ hu _ := by rw [hw]; exact hu
  wake _ _ hv := absurd hv.1 ht

end Frame

end LinuxUms
