import LinuxUms.Ledger
import LinuxUms.Transition

/-! Nothing is lost and nothing is freed twice. While the device is open, every piece of memory
is held by one table, one queue or one callback; `ums_dev_release` empties the tables and queues. -/
namespace LinuxUms

open KernelList

namespace IoState

variable {s : IoState} {t : Pid} {l : ListId}

/-- The object is registered. -/
def Has (s : IoState) : Object → Prop
  | .complist l => s.list l ≠ none
  | .context c => s.attached c ≠ none
  | .wild => False

/-- Every scheduler is attached to a list. -/
def Placed (s : IoState) : Prop := ∀ p y, s.scheduler p = some y → y.complist ≠ none

theorem Inv.has_worker (hi : s.Inv) (hw : s.worker t ≠ none) :
    s.Has (.context (.worker t)) := by
  obtain ⟨w, hw⟩ := Option.ne_none_iff_exists'.mp hw
  obtain ⟨l, o, hl, -⟩ := hi.holders.holder t w hw
  simp [Has, attached, hw, hl]

theorem Placed.has (hp : s.Placed) (hs : s.scheduler t ≠ none) :
    s.Has (.context (.scheduler t)) := by
  obtain ⟨y, hy⟩ := Option.ne_none_iff_exists'.mp hs
  simpa [Has, attached, hy] using hp t y hy

/-- The sentinel and the members of a ring. -/
theorem Inv.has_ring (hi : s.Inv) (a : Node) (k : List Node) (hk : s.rings a = some k)
    (ha : s.Has (.ofPtr (.node a))) : ∀ x ∈ a :: k, s.Has (.ofPtr (.node x)) := by
  intro x hx
  rcases List.mem_cons.mp hx with rfl | hx
  · exact ha
  · obtain ⟨c, w, rfl, hw, -⟩ := hi.rings.member a k hk x hx
    exact hi.has_worker (by simp [hw])

theorem Inv.has_touchedByAdd (hi : s.Inv) (a : Node) (k : List Node) (hk : s.rings a = some k)
    (ha : s.Has (.ofPtr (.node a))) : ∀ o ∈ touchedByAdd s.heap a, s.Has o := by
  have hring := hi.has_ring a k hk ha
  obtain ⟨hnext, hprev⟩ := seg_ends _ _ _ _ (hi.rings.family.ring a k hk rfl).1
  have hfirst : k.head?.getD a ∈ a :: k := by
    cases k <;> simp
  have hlast : k.getLast?.getD a ∈ a :: k := by
    rcases List.eq_nil_or_concat k with rfl | ⟨m, x, rfl⟩ <;> simp
  intro o ho
  simp only [touchedByAdd, hnext, hprev, List.mem_cons, List.not_mem_nil, or_false] at ho
  rcases ho with rfl | rfl | rfl
  · exact ha
  · exact hring _ hlast
  · exact hring _ hfirst

theorem Inv.has_touchedByTake (hi : s.Inv) (a : Node) (k : List Node) (hk : s.rings a = some k)
    (ha : s.Has (.ofPtr (.node a))) : ∀ o ∈ touchedByTake s.heap a, s.Has o := by
  intro o ho
  rcases List.mem_append.mp ho with ho | ho
  · exact hi.has_touchedByAdd a k hk ha o ho
  · have hring := hi.rings.family.ring a k hk rfl
    -- the entry after the first, or the sentinel again
    cases k with
    | nil =>
      have hself := (seg_ends _ _ _ _ hring.1).1
      simp only [List.head?_nil, Option.getD_none] at hself
      simp only [hself, List.mem_singleton] at ho
      exact ho ▸ ha
    | cons c m =>
      have hnext := hring.1.1.1
      have hnext' := (seg_ends _ _ _ _ hring.1.2).1
      simp only [hnext, hnext', List.mem_singleton] at ho
      have hmem : m.head?.getD a ∈ a :: c :: m := by
        cases m <;> simp
      exact ho ▸ hi.has_ring a _ hk ha _ hmem

/-- A guarded call on a device in order touches nothing that is gone. -/
theorem Inv.has_touched (hi : s.Inv) (hp : s.Placed) (act : IoAct) (hok : Guarded s act)
    (ha : s.asleep act.caller = none) : ∀ o ∈ touched s act, s.Has o := by
  cases act with
  | create t l => simp [touched]
  | delete t l =>
    intro o ho
    simp only [touched] at ho
    split at ho
    · rename_i hl
      obtain rfl := List.mem_singleton.mp ho
      simpa [Has, Option.isSome_iff_ne_none] using hl
    · cases ho
  | enterWorker t l node zero =>
    obtain ⟨q, hq⟩ := hi.head_some hok
    exact hi.has_touchedByAdd _ q hq hok
  | enterScheduler t l =>
    intro o ho
    obtain rfl := List.mem_singleton.mp ho
    exact hok
  | dqcontext t l copied =>
    intro o ho
    simp only [touched] at ho
    split at ho
    · rename_i hsome
      obtain ⟨hl, hs⟩ : s.list l ≠ none ∧ s.scheduler t ≠ none := by
        simpa [Option.isSome_iff_ne_none] using hsome
      -- the walk over the batch goes through every member of the ring
      obtain ⟨q, hq⟩ := hi.head_some hl
      simp only [hq, Option.getD_some, List.cons_append, List.mem_cons, List.mem_append,
        List.mem_map] at ho
      rcases ho with rfl | ho | ⟨x, hx, rfl⟩
      · exact hp.has hs
      · exact hi.has_touchedByTake _ q hq hl o ho
      · exact hi.has_ring _ q hq hl x (List.mem_cons_of_mem _ hx)
    · cases ho
  | nextContext t c =>
    intro o ho
    simp only [touched] at ho
    split at ho
    · rename_i hsome
      obtain ⟨w, hw⟩ := Option.isSome_iff_exists.mp hsome
      -- the guard: the context is alone or heads what is left of a batch
      obtain ⟨k, hk⟩ : ∃ k, s.rings (.context c) = some k := by
        rcases hok with hnone | he | hne
        · rw [hw] at hnone
          cases hnone
        · exact ⟨[], hi.rings.selfLinked w hw he⟩
        · cases hk : s.rings (.context c) with
          | none => simp [hk] at hne
          | some k => exact ⟨k, rfl⟩
      exact hi.has_touchedByTake _ k hk (hi.has_worker (by simp [hw])) o ho
    · cases ho
  | exec t w =>
    intro o ho
    simp only [touched] at ho
    split at ho
    · rename_i hsome
      obtain ⟨hw, hs⟩ : s.worker w ≠ none ∧ s.scheduler t ≠ none := by
        simpa [Option.isSome_iff_ne_none] using hsome
      simp only [List.mem_cons, List.not_mem_nil, or_false] at ho
      rcases ho with rfl | rfl
      · exact hi.has_worker hw
      · exact hp.has hs
    · cases ho
  | yield t args =>
    intro o ho
    cases hw : s.worker t with
    | none => simp [touched, hw] at ho
    | some w =>
      -- a worker that calls has a scheduler that sleeps in its execute, and a list that it holds
      obtain ⟨p, n, l, y, r, rfl, -, hy, hl, -⟩ := hi.caller ha w hw
      obtain ⟨q, hq⟩ := hi.head_some (l := l) (by simp [hl])
      simp only [touched, hw, List.mem_cons] at ho
      rcases ho with rfl | rfl | ho
      · exact hi.has_worker (by simp [hw])
      · exact hp.has (by simp [hy])
      · exact hi.has_touchedByAdd _ q hq (by simp [Has, Object.ofPtr, hl]) o ho
  | exit t =>
    intro o ho
    cases hw : s.worker t with
    | none => simp [touched, hw] at ho
    | some w =>
      obtain ⟨p, n, l, y, r, rfl, -, hy, hl, -⟩ := hi.caller ha w hw
      simp only [touched, hw, List.mem_cons, List.not_mem_nil, or_false] at ho
      rcases ho with rfl | rfl | rfl
      · exact hi.has_worker (by simp [hw])
      · exact hp.has (by simp [hy])
      · simp [Has, hl]
  | dqevent t copied =>
    intro o ho
    simp only [touched] at ho
    split at ho
    · rename_i hs
      obtain rfl := List.mem_singleton.mp ho
      exact hp.has (by simpa [Option.isSome_iff_ne_none] using hs)
    · cases ho

end IoState

namespace Ledger

variable {s s' : Ledger} {t : Pid} {l : ListId} {c : ContextRef}

/-- What somebody still has to free. -/
def owned (s : Ledger) : List ℕ :=
  s.lists.map Prod.snd ++ s.contexts.map (fun x => x.2.addr) ++ s.events.map Prod.snd ++
    s.pending.map Callback.addr

def ownedTasks (s : Ledger) : List ℕ :=
  s.contexts.map (fun x => x.2.task) ++ s.pending.filterMap Callback.task

/-- The books are in order. -/
structure Sound (s : Ledger) : Prop where
  attached : Attached s.io.list s.io.attached
  lists : ∀ l, l ∈ Keyed.keys s.lists ↔ s.io.list l ≠ none
  listsNodup : (Keyed.keys s.lists).Nodup
  contexts : ∀ c, c ∈ Keyed.keys s.contexts ↔ s.io.attached c ≠ none
  contextsNodup : (Keyed.keys s.contexts).Nodup
  events : ∀ e ∈ s.events, s.io.attached (.scheduler e.1) ≠ none
  mem : s.mem.Balanced s.owned
  tasks : s.tasks.Balanced s.ownedTasks
  good : s.mem.bad = false

theorem Sound.addr_owned (h : s.Sound) (o : Object) (ho : s.io.Has o) :
    ∃ a ∈ s.owned, s.addr o = some a := by
  cases o with
  | complist l =>
    obtain ⟨a, ha, hmem⟩ := Keyed.exists_get ((h.lists l).mpr ho)
    refine ⟨a, ?_, ha⟩
    simp only [owned, List.mem_append, List.mem_map]
    exact Or.inl (Or.inl (Or.inl ⟨_, hmem, rfl⟩))
  | context c =>
    obtain ⟨m, hm, hmem⟩ := Keyed.exists_get ((h.contexts c).mpr ho)
    refine ⟨m.addr, ?_, by simp [addr, hm]⟩
    simp only [owned, List.mem_append, List.mem_map]
    exact Or.inl (Or.inl (Or.inr ⟨_, hmem, rfl⟩))
  | wild => exact ho.elim

theorem Sound.touch (h : s.Sound) (os : List Object) (hos : ∀ o ∈ os, s.io.Has o) :
    s.touch os = s.mem :=
  h.mem.uses s.addr os (fun o ho => h.addr_owned o (hos o ho))

/-- A step of the device that registers and ends nobody. -/
theorem Sound.setIo (h : s.Sound) (io : IoState) (hok : Attached io.list io.attached)
    (hl : ∀ l, io.list l = none ↔ s.io.list l = none) (ha : io.attached = s.io.attached) :
    Sound { s with io := io } := by
  refine ⟨hok, fun l => ?_, h.listsNodup, fun c => ?_, h.contextsNodup, fun e he => ?_, h.mem,
    h.tasks, h.good⟩
  · exact (h.lists l).trans (not_congr (hl l)).symm
  · rw [ha]
    exact h.contexts c
  · rw [ha]
    exact h.events e he

theorem putUmsComplist_fields (l : ListId) :
    (s.putUmsComplist l).io = s.io ∧ (s.putUmsComplist l).contexts = s.contexts ∧
      (s.putUmsComplist l).events = s.events ∧ (s.putUmsComplist l).mem = s.mem ∧
      (s.putUmsComplist l).tasks = s.tasks ∧ (s.putUmsComplist l).opened = s.opened := by
  unfold putUmsComplist
  split
  · split <;> simp
  · simp

theorem retire_fields (c : ContextRef) :
    (s.retire c).io = s.io ∧ (s.retire c).lists = s.lists ∧ (s.retire c).events = s.events ∧
      (s.retire c).mem = s.mem ∧ (s.retire c).tasks = s.tasks ∧
      (s.retire c).opened = s.opened := by
  unfold retire
  split <;> simp

/-- The list goes from its table to a callback, or nothing changes. -/
theorem putUmsComplist_owned (hnd : (Keyed.keys s.lists).Nodup) (l : ListId) :
    s.owned.Perm (s.putUmsComplist l).owned ∧
      s.ownedTasks.Perm (s.putUmsComplist l).ownedTasks := by
  unfold putUmsComplist
  split
  · rename_i o a hl ha
    split
    · have hperm := (Keyed.perm_remove hnd ha).map Prod.snd
      constructor
      · refine List.perm_iff_count.mpr fun x => ?_
        have hx := hperm.count_eq x
        simp only [owned, List.map_append, List.map_cons, List.map_nil, List.count_append,
          List.count_cons, List.count_nil, Callback.addr] at hx ⊢
        omega
      · have hnone : [Callback.complist a].filterMap Callback.task = [] := rfl
        simp [ownedTasks, hnone]
    · exact ⟨.refl _, .refl _⟩
  · exact ⟨.refl _, .refl _⟩

theorem retire_owned (hnd : (Keyed.keys s.contexts).Nodup) (c : ContextRef) :
    s.owned.Perm (s.retire c).owned ∧ s.ownedTasks.Perm (s.retire c).ownedTasks := by
  unfold retire
  split
  · rename_i m hm
    have hperm := Keyed.perm_remove hnd hm
    constructor
    · refine List.perm_iff_count.mpr fun x => ?_
      have hx := (hperm.map (fun x => x.2.addr)).count_eq x
      simp only [owned, List.map_append, List.map_cons, List.map_nil, List.count_append,
        List.count_cons, List.count_nil, Callback.addr] at hx ⊢
      omega
    · refine List.perm_iff_count.mpr fun x => ?_
      have hx := (hperm.map (fun x => x.2.task)).count_eq x
      simp only [ownedTasks, List.filterMap_append, List.filterMap_cons, List.filterMap_nil,
        Callback.task, List.map_cons, List.count_append, List.count_cons, List.count_nil] at hx ⊢
      omega
  · exact ⟨.refl _, .refl _⟩

/-- The table of lists after a put. -/
theorem Sound.put_lists (h : s.Sound) (o o' : ListRec) (hl : s.io.list l = some o)
    (ho : o'.refcount = o.refcount) :
    (∀ j, j ∈ Keyed.keys (s.putUmsComplist l).lists ↔ putList s.io.list l o' j ≠ none) ∧
      (Keyed.keys (s.putUmsComplist l).lists).Nodup := by
  obtain ⟨a, ha, -⟩ := Keyed.exists_get ((h.lists l).mpr (by simp [hl]))
  simp only [putUmsComplist, hl, ha, putList, ho]
  split
  · refine ⟨fun j => ?_, Keyed.nodup_remove h.listsNodup l⟩
    rw [Keyed.mem_keys_remove, h.lists j]
    by_cases hj : j = l
    · simp [hj]
    · simp [hj]
  · refine ⟨fun j => ?_, h.listsNodup⟩
    rw [h.lists j]
    by_cases hj : j = l
    · simp [hj, hl]
    · simp [Function.update_of_ne hj]

theorem Sound.retire_contexts (h : s.Sound) (hc : s.io.attached c ≠ none) :
    (∀ d, d ∈ Keyed.keys (s.retire c).contexts ↔
        Function.update s.io.attached c none d ≠ none) ∧
      (Keyed.keys (s.retire c).contexts).Nodup := by
  obtain ⟨m, hm, -⟩ := Keyed.exists_get ((h.contexts c).mpr hc)
  simp only [retire, hm]
  refine ⟨fun d => ?_, Keyed.nodup_remove h.contextsNodup c⟩
  rw [Keyed.mem_keys_remove, h.contexts d]
  by_cases hd : d = c
  · simp [hd]
  · simp [hd]

/-- A context leaves its table and drops its list. -/
theorem Sound.leave (h : s.Sound) (o : ListRec) (hl : s.io.list l = some o)
    (hc : s.io.attached c = some l) (hev : ∀ e ∈ s.events, .scheduler e.1 ≠ c) (io : IoState)
    (hlist : io.list = putList s.io.list l { o with holders := o.holders.erase c })
    (hatt : io.attached = Function.update s.io.attached c none) :
    Sound { (s.putUmsComplist l).retire c with io := io } := by
  obtain ⟨hput_io, hput_contexts, hput_events, hput_mem, hput_tasks, -⟩ :=
    s.putUmsComplist_fields l
  obtain ⟨-, hret_lists, hret_events, hret_mem, hret_tasks, -⟩ :=
    (s.putUmsComplist l).retire_fields c
  obtain ⟨hown, htask⟩ := putUmsComplist_owned h.listsNodup l
  obtain ⟨hown', htask'⟩ := retire_owned (s := s.putUmsComplist l)
    (by rw [hput_contexts]; exact h.contextsNodup) c
  -- two objects may go at once: the list with its last holder, and the context itself
  obtain ⟨hkeys, hnd⟩ := h.put_lists o { o with holders := o.holders.erase c } hl rfl
  have hcontexts : (((s.putUmsComplist l).retire c).contexts) = (s.retire c).contexts := by
    simp only [retire, hput_contexts]
    split
    · rfl
    · exact hput_contexts
  obtain ⟨hkeys', hnd'⟩ := h.retire_contexts (c := c) (by simp [hc])
  refine ⟨?_, ?_, ?_, ?_, ?_, ?_, ?_, ?_, ?_⟩
  · rw [hlist, hatt]
    exact h.attached.drop hl hc
  · rw [hlist, hret_lists]
    exact hkeys
  · rw [hret_lists]
    exact hnd
  · rw [hatt, hcontexts]
    exact hkeys'
  · rw [hcontexts]
    exact hnd'
  · intro e he
    rw [hret_events, hput_events] at he
    rw [hatt, Function.update_of_ne (hev e he)]
    exact h.events e he
  · rw [hret_mem, hput_mem]
    exact h.mem.perm (hown.trans hown')
  · rw [hret_tasks, hput_tasks]
    exact h.tasks.perm (htask.trans htask')
  · rw [hret_mem, hput_mem]
    exact h.good

theorem attached_putUmsComplist (io : IoState) (l : ListId) (o : ListRec) :
    (io.putUmsComplist l o).attached = io.attached := by
  funext c
  cases c <;> simp [IoState.attached]

theorem attached_unregister (io : IoState) (c : ContextRef) :
    (io.unregister c).attached = Function.update io.attached c none := by
  funext d
  by_cases hd : d = c
  · subst hd
    cases d <;> simp [IoState.unregister, IoState.attached]
  · rw [Function.update_of_ne hd]
    cases c <;> cases d <;> simp_all [IoState.unregister, IoState.attached]

/-- What a destruction touches is there. -/
theorem Sound.destroyContext_eq (h : s.Sound) (hc : s.io.attached c = some l) :
    s.destroyContext c =
      { (s.putUmsComplist l).retire c with io := s.io.destroyContext c } := by
  have htouch : s.touch [.context c, .complist l] = s.mem := by
    refine h.touch _ fun x hx => ?_
    simp only [List.mem_cons, List.not_mem_nil, or_false] at hx
    rcases hx with rfl | rfl
    · simp [IoState.Has, hc]
    · exact h.attached.live c l hc
  have hmem : ((s.putUmsComplist l).retire c).mem = s.mem :=
    ((s.putUmsComplist l).retire_fields c).2.2.2.1.trans (s.putUmsComplist_fields l).2.2.2.1
  simp only [Ledger.destroyContext, hc, htouch]
  rw [← hmem]

theorem Sound.destroyContext (h : s.Sound) (hc : s.io.attached c ≠ none)
    (hev : ∀ e ∈ s.events, .scheduler e.1 ≠ c) :
    (s.destroyContext c).Sound ∧
      (s.destroyContext c).io.attached = Function.update s.io.attached c none := by
  obtain ⟨l, hc⟩ := Option.ne_none_iff_exists'.mp hc
  obtain ⟨o, hl⟩ := Option.ne_none_iff_exists'.mp (h.attached.live c l hc)
  have hio : s.io.destroyContext c =
      (s.io.unregister c).putUmsComplist l { o with holders := o.holders.erase c } := by
    simp only [IoState.destroyContext, hc, hl]
  have hatt : (s.io.destroyContext c).attached = Function.update s.io.attached c none := by
    rw [hio, attached_putUmsComplist, attached_unregister]
  have hlist : (s.io.destroyContext c).list =
      putList s.io.list l { o with holders := o.holders.erase c } := by
    rw [hio, IoState.putUmsComplist_list]
    cases c <;> rfl
  rw [h.destroyContext_eq hc]
  exact ⟨h.leave o hl hc hev _ hlist hatt, hatt⟩

theorem Sound.umsSchedulerDestroy (h : s.Sound) (ht : s.io.attached (.scheduler t) ≠ none) :
    (s.umsSchedulerDestroy t).Sound ∧
      (s.umsSchedulerDestroy t).io.attached =
        Function.update s.io.attached (.scheduler t) none := by
  have htouch : s.touch [.context (.scheduler t)] = s.mem :=
    h.touch _ fun x hx => by obtain rfl := List.mem_singleton.mp hx; exact ht
  have huse : (s.eventsOf t).foldl (fun m (e : Pid × ℕ) => m.use (some e.2)) s.mem = s.mem := by
    refine h.mem.uses (fun e : Pid × ℕ => some e.2) _ fun e he => ⟨e.2, ?_, rfl⟩
    simp only [owned, List.mem_append, List.mem_map]
    exact Or.inl (Or.inr ⟨e, (List.mem_filter.mp he).1, rfl⟩)
  -- the events of this scheduler are those that go
  have hsplit : s.owned.Perm ((s.eventsOf t).map Prod.snd ++
      { s with events := s.events.filter (fun e => e.1 ≠ t) }.owned) := by
    refine List.perm_iff_count.mpr fun x => ?_
    have hx := ((List.filter_append_perm (fun e => e.1 = t) s.events).map Prod.snd).count_eq x
    simp only [owned, eventsOf, List.map_append, List.count_append, ne_eq, decide_not] at hx ⊢
    omega
  have hs : Sound { s with
      events := s.events.filter (fun e => e.1 ≠ t)
      mem := ((s.eventsOf t).map Prod.snd).foldl Slab.free s.mem } := by
    refine ⟨h.attached, h.lists, h.listsNodup, h.contexts, h.contextsNodup, fun e he => ?_, ?_,
      h.tasks, ?_⟩
    · exact h.events e (List.mem_filter.mp he).1
    · exact (h.mem.perm hsplit).frees _
    · rw [Slab.foldl_free_bad]
      exact h.good
  simp only [Ledger.umsSchedulerDestroy, htouch, huse]
  refine hs.destroyContext ht fun e he => ?_
  simpa using (List.mem_filter.mp he).2

/-- One loop of `ums_dev_release`, over contexts that are there. -/
theorem Sound.foldl_destroy (f : Ledger → Pid → Ledger) (ref : Pid → ContextRef)
    (href : Function.Injective ref)
    (hf : ∀ s t, Sound s → s.io.attached (ref t) ≠ none →
      (f s t).Sound ∧ (f s t).io.attached = Function.update s.io.attached (ref t) none)
    (ts : List Pid) (hnd : ts.Nodup) (h : s.Sound) (hts : ∀ t ∈ ts, s.io.attached (ref t) ≠ none) :
    (ts.foldl f s).Sound ∧ ∀ c, (ts.foldl f s).io.attached c ≠ none ↔
      c ∉ ts.map ref ∧ s.io.attached c ≠ none := by
  induction ts generalizing s with
  | nil => exact ⟨h, fun c => by simp⟩
  | cons t ts ih =>
    obtain ⟨hnot, hnd⟩ := List.nodup_cons.mp hnd
    obtain ⟨hs, ha⟩ := hf s t h (hts t List.mem_cons_self)
    obtain ⟨hs', ha'⟩ := ih hnd hs (fun u hu => by
      have hne : u ≠ t := fun he => hnot (he ▸ hu)
      rw [ha, Function.update_of_ne (fun he => hne (href he))]
      exact hts u (List.mem_cons_of_mem _ hu))
    refine ⟨hs', fun c => (ha' c).trans ?_⟩
    rw [ha, List.map_cons, List.mem_cons, not_or]
    by_cases hc : c = ref t
    · simp [hc]
    · simp [hc]

/-- Nobody is registered after the two loops over the tables. -/
theorem Sound.releaseContexts (h : s.Sound) (ws ss : List Pid)
    (hperm : (ws.map ContextRef.worker ++ ss.map ContextRef.scheduler).Perm
      (Keyed.keys s.contexts)) :
    (s.releaseContexts ws ss).Sound ∧ ∀ c, (s.releaseContexts ws ss).io.attached c = none := by
  have hnd : (ws.map ContextRef.worker ++ ss.map ContextRef.scheduler).Nodup :=
    hperm.symm.nodup h.contextsNodup
  have hmem (c : ContextRef) : c ∈ ws.map ContextRef.worker ++ ss.map ContextRef.scheduler ↔
      s.io.attached c ≠ none := hperm.mem_iff.trans (h.contexts c)
  have hinj : Function.Injective ContextRef.worker := fun _ _ he => ContextRef.worker.inj he
  have hinj' : Function.Injective ContextRef.scheduler := fun _ _ he => ContextRef.scheduler.inj he
  obtain ⟨hs, ha⟩ := h.foldl_destroy Ledger.umsWorkerDestroy .worker hinj
    (fun s t hs ht => hs.destroyContext ht (by simp)) ws (hnd.of_append_left.of_map _)
    (fun t ht => (hmem _).mp (List.mem_append_left _ (List.mem_map_of_mem ht)))
  obtain ⟨hs', ha'⟩ := hs.foldl_destroy Ledger.umsSchedulerDestroy .scheduler hinj'
    (fun s t hs ht => hs.umsSchedulerDestroy ht) ss (hnd.of_append_right.of_map _)
    (fun t ht => (ha _).mpr ⟨by simp, (hmem _).mp
      (List.mem_append_right _ (List.mem_map_of_mem ht))⟩)
  refine ⟨hs', fun c => ?_⟩
  by_contra hne
  obtain ⟨hss, hne⟩ := (ha' c).mp hne
  obtain ⟨hws, hne⟩ := (ha c).mp hne
  exact (List.mem_append.mp ((hmem c).mpr hne)).elim hws hss

end Ledger

/-- A list that nobody is attached to is left alone with the reference of its creator. -/
theorem Attached.alone {L : ListId → Option ListRec} {A : ContextRef → Option ListId}
    (ok : Attached L A) (hA : ∀ c, A c = none) (l : ListId) (o : ListRec) (hl : L l = some o) :
    o.refcount = 1 := by
  have hempty : o.holders = [] := by
    refine List.eq_nil_iff_forall_not_mem.mpr fun c hc => ?_
    rw [ok.holder l o c hl, hA] at hc
    cases hc
  obtain ⟨hcount, hpos⟩ := ok.count l o hl
  rw [hempty] at hcount
  split at hcount
  · simp only [List.length_nil] at hcount
    omega
  · simpa using hcount

theorem Attached.forget {L : ListId → Option ListRec} {A : ContextRef → Option ListId}
    (ok : Attached L A) (hA : ∀ c, A c = none) (l : ListId) :
    Attached (Function.update L l none) A :=
  ⟨fun m p hp => ok.count m p (of_update_none hp).2,
    fun m p hp => ok.nodup m p (of_update_none hp).2,
    fun m p c hp => ok.holder m p c (of_update_none hp).2, fun c m hc => by simp [hA] at hc⟩

namespace Ledger

variable {s s' : Ledger} {t : Pid} {l : ListId} {c : ContextRef}

theorem Sound.releaseComplist (h : s.Sound) (hA : ∀ c, s.io.attached c = none)
    (hl : s.io.list l ≠ none) :
    (s.releaseComplist l).Sound ∧ (∀ c, (s.releaseComplist l).io.attached c = none) ∧
      (s.releaseComplist l).io.list = Function.update s.io.list l none := by
  obtain ⟨o, hl⟩ := Option.ne_none_iff_exists'.mp hl
  have hone := h.attached.alone hA l o hl
  have hput : putList s.io.list l o = Function.update s.io.list l none := by
    simp [putList, hone]
  have htouch : s.touch [.complist l] = s.mem :=
    h.touch _ fun x hx => by obtain rfl := List.mem_singleton.mp hx; simp [IoState.Has, hl]
  obtain ⟨-, hcontexts, hevents, hmem, htasks, -⟩ := s.putUmsComplist_fields l
  obtain ⟨hkeys, hnd⟩ := h.put_lists o o hl rfl
  obtain ⟨hown, htask⟩ := putUmsComplist_owned h.listsNodup l
  have hatt := attached_putUmsComplist s.io l o
  have heq : s.releaseComplist l = { s.putUmsComplist l with io := s.io.putUmsComplist l o } := by
    simp only [Ledger.releaseComplist, hl, htouch]
    rw [← hmem]
  rw [heq]
  refine ⟨⟨?_, ?_, hnd, ?_, ?_, ?_, ?_, ?_, ?_⟩, fun c => by rw [hatt]; exact hA c, ?_⟩
  · rw [IoState.putUmsComplist_list, hput, hatt]
    exact h.attached.forget hA l
  · rw [IoState.putUmsComplist_list]
    exact hkeys
  · rw [hatt, hcontexts]
    exact h.contexts
  · rw [hcontexts]
    exact h.contextsNodup
  · rw [hatt, hevents]
    exact h.events
  · rw [hmem]
    exact h.mem.perm hown
  · rw [htasks]
    exact h.tasks.perm htask
  · rw [hmem]
    exact h.good
  · rw [IoState.putUmsComplist_list, hput]

theorem Sound.releaseComplists (h : s.Sound) (hA : ∀ c, s.io.attached c = none)
    (ls : List ListId) (hnd : ls.Nodup) (hls : ∀ l ∈ ls, s.io.list l ≠ none) :
    (ls.foldl Ledger.releaseComplist s).Sound ∧
      (∀ c, (ls.foldl Ledger.releaseComplist s).io.attached c = none) ∧
      ∀ l, (ls.foldl Ledger.releaseComplist s).io.list l ≠ none → l ∉ ls ∧ s.io.list l ≠ none := by
  induction ls generalizing s with
  | nil => exact ⟨h, hA, fun l hl => ⟨by simp, hl⟩⟩
  | cons l ls ih =>
    obtain ⟨hnot, hnd⟩ := List.nodup_cons.mp hnd
    obtain ⟨hs, ha, hlist⟩ := h.releaseComplist hA (hls l List.mem_cons_self)
    obtain ⟨hs', ha', hgone⟩ := ih hs ha hnd (fun j hj => by
      have hne : j ≠ l := fun he => hnot (he ▸ hj)
      rw [hlist, Function.update_of_ne hne]
      exact hls j (List.mem_cons_of_mem _ hj))
    refine ⟨hs', ha', fun j hj => ?_⟩
    obtain ⟨hmem, hj⟩ := hgone j hj
    rw [hlist] at hj
    have hjl : j ≠ l := by
      rintro rfl
      simp at hj
    rw [Function.update_of_ne hjl] at hj
    exact ⟨by simp [hjl, hmem], hj⟩

/-- Only callbacks are left to free anything. -/
structure Closed (s : Ledger) : Prop where
  mem : s.mem.Balanced (s.pending.map Callback.addr)
  tasks : s.tasks.Balanced (s.pending.filterMap Callback.task)
  good : s.mem.bad = false

theorem Sound.release (h : s.Sound) (ws ss : List Pid) (ls : List ListId)
    (hperm : (ws.map ContextRef.worker ++ ss.map ContextRef.scheduler).Perm
      (Keyed.keys s.contexts))
    (hls : ls.Perm (Keyed.keys (s.releaseContexts ws ss).lists)) :
    (s.umsDevRelease ws ss ls).Closed := by
  obtain ⟨hs, hA⟩ := h.releaseContexts ws ss hperm
  obtain ⟨hs', hA', hgone⟩ := hs.releaseComplists hA ls (hls.symm.nodup hs.listsNodup)
    (fun l hl => (hs.lists l).mp (hls.mem_iff.mp hl))
  have hlists : (ls.foldl Ledger.releaseComplist (s.releaseContexts ws ss)).lists = [] := by
    refine Keyed.eq_nil_of_keys fun l hl => ?_
    obtain ⟨hnot, hl⟩ := hgone l ((hs'.lists l).mp hl)
    exact hnot (hls.mem_iff.mpr ((hs.lists l).mpr hl))
  have hcontexts : (ls.foldl Ledger.releaseComplist (s.releaseContexts ws ss)).contexts = [] := by
    exact Keyed.eq_nil_of_keys fun c hc => (hs'.contexts c).mp hc (hA' c)
  have hevents : (ls.foldl Ledger.releaseComplist (s.releaseContexts ws ss)).events = [] :=
    List.eq_nil_iff_forall_not_mem.mpr fun e he => hs'.events e he (hA' _)
  refine ⟨?_, ?_, hs'.good⟩
  · simpa [umsDevRelease, owned, hlists, hcontexts, hevents] using hs'.mem
  · simpa [umsDevRelease, ownedTasks, hcontexts] using hs'.tasks

/-- A context comes with its memory and the reference to its task. -/
theorem Sound.enter (h : s.Sound) (hc : s.io.attached c = none) (o : ListRec)
    (hl : s.io.list l = some o) (io : IoState)
    (hlist : io.list = Function.update s.io.list l
      (some { o with refcount := o.refcount + 1, holders := c :: o.holders }))
    (hatt : io.attached = Function.update s.io.attached c (some l)) :
    Sound { s with
      io := io
      mem := s.mem.alloc
      tasks := s.tasks.alloc
      contexts := (c, ⟨s.mem.next, s.tasks.next⟩) :: s.contexts } := by
  refine ⟨?_, fun j => ?_, h.listsNodup, fun d => ?_, ?_, fun e he => ?_, ?_, ?_, h.good⟩
  · rw [hlist, hatt]
    exact h.attached.get hc hl
  · rw [hlist, h.lists j]
    by_cases hj : j = l
    · simp [hj, hl]
    · rw [Function.update_of_ne hj]
  · rw [hatt, Keyed.keys_cons, List.mem_cons, h.contexts d]
    by_cases hd : d = c
    · simp [hd]
    · simp [hd]
  · exact List.nodup_cons.mpr ⟨fun hm => (h.contexts c).mp hm hc, h.contextsNodup⟩
  · rw [hatt]
    by_cases he' : .scheduler e.1 = c
    · simp [he']
    · rw [Function.update_of_ne he']
      exact h.events e he
  · refine h.mem.alloc.perm (List.perm_iff_count.mpr fun x => ?_)
    simp only [owned, List.map_cons, List.count_append, List.count_cons]
    omega
  · exact h.tasks.alloc

theorem Sound.addEvent (h : s.Sound) (p : Pid) (hp : s.io.attached (.scheduler p) ≠ none) :
    Sound { s with mem := s.mem.alloc, events := s.events ++ [(p, s.mem.next)] } := by
  refine ⟨h.attached, h.lists, h.listsNodup, h.contexts, h.contextsNodup, fun e he => ?_, ?_,
    h.tasks, h.good⟩
  · rcases List.mem_append.mp he with he | he
    · exact h.events e he
    · obtain rfl := List.mem_singleton.mp he
      exact hp
  · refine h.mem.alloc.perm (List.perm_iff_count.mpr fun x => ?_)
    simp only [owned, List.map_append, List.map_cons, List.map_nil, List.count_append,
      List.count_cons, List.count_nil]
    omega

theorem Sound.permEvents (h : s.Sound) (es : List (Pid × ℕ)) (hes : s.events.Perm es) :
    Sound { s with events := es } := by
  refine ⟨h.attached, h.lists, h.listsNodup, h.contexts, h.contextsNodup,
    fun e he => h.events e (hes.mem_iff.mpr he), ?_, h.tasks, h.good⟩
  refine h.mem.perm (List.perm_iff_count.mpr fun x => ?_)
  have hx := (hes.map Prod.snd).count_eq x
  simp only [owned, List.count_append]
  omega

theorem Sound.freeEvent (h : s.Sound) (e : Pid × ℕ) (he : e ∈ s.events) :
    Sound { s with mem := s.mem.free e.2, events := s.events.erase e } := by
  refine ⟨h.attached, h.lists, h.listsNodup, h.contexts, h.contextsNodup,
    fun x hx => h.events x (List.mem_of_mem_erase hx), ?_, h.tasks, h.good⟩
  refine (h.mem.perm (List.perm_iff_count.mpr fun x => ?_)).free
  have hx := ((List.perm_cons_erase he).map Prod.snd).count_eq x
  simp only [owned, List.map_cons, List.count_append, List.count_cons] at hx ⊢
  omega

theorem Sound.createList (h : s.Sound) (hl : s.io.list l = none) (io : IoState)
    (hlist : io.list = Function.update s.io.list l (some ⟨1, false, []⟩))
    (hatt : io.attached = s.io.attached) :
    Sound { s with io := io, mem := s.mem.alloc, lists := (l, s.mem.next) :: s.lists } := by
  refine ⟨?_, fun j => ?_, ?_, ?_, h.contextsNodup, ?_, h.mem.alloc, h.tasks, h.good⟩
  · rw [hlist, hatt]
    exact h.attached.create hl
  · rw [hlist, Keyed.keys_cons, List.mem_cons, h.lists j]
    by_cases hj : j = l
    · simp [hj]
    · simp [hj]
  · exact List.nodup_cons.mpr ⟨fun hm => (h.lists l).mp hm hl, h.listsNodup⟩
  · rw [hatt]
    exact h.contexts
  · rw [hatt]
    exact h.events

theorem Sound.deleteList (h : s.Sound) (o : ListRec) (hl : s.io.list l = some o)
    (ho : o.deleted = false) (io : IoState)
    (hlist : io.list = putList s.io.list l { o with deleted := true })
    (hatt : io.attached = s.io.attached) : Sound { s.putUmsComplist l with io := io } := by
  obtain ⟨-, hcontexts, hevents, hmem, htasks, -⟩ := s.putUmsComplist_fields l
  obtain ⟨hkeys, hnd⟩ := h.put_lists o { o with deleted := true } hl rfl
  obtain ⟨hown, htask⟩ := putUmsComplist_owned h.listsNodup l
  refine ⟨?_, ?_, hnd, ?_, ?_, ?_, ?_, ?_, ?_⟩
  · rw [hlist, hatt]
    exact h.attached.delete hl ho
  · rw [hlist]
    exact hkeys
  · rw [hatt, hcontexts]
    exact h.contexts
  · rw [hcontexts]
    exact h.contextsNodup
  · rw [hatt, hevents]
    exact h.events
  · rw [hmem]
    exact h.mem.perm hown
  · rw [htasks]
    exact h.tasks.perm htask
  · rw [hmem]
    exact h.good

end Ledger

end LinuxUms
