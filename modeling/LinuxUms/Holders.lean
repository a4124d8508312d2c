import LinuxUms.References
import Mathlib.Data.List.Count

/-! Who holds a reference to a completion list. An enter has its reference before its context points
to the list, and a context that is destroyed still points to the list when its reference is gone. -/
namespace LinuxUms

namespace RegPc

/-- The list that a thread's context of role `r` holds a reference to, if its member is `m`. -/
def holds (r : Role) (m : Option Addr) : RegPc → Option Addr
  -- not stored yet
  | .storing k a => if k = r then some a else m
  -- put by the destroy function
  | .removing k _ | .retiring k _ => if k = some r then none else m
  | .dropping k _ => if k = r then none else m
  | _ => m

/-- The list that the thread has a reference to and no pointer, or a pointer and no reference. -/
def between : RegPc → Option Addr
  | .storing _ a | .dropping _ a => some a
  | .removing k a | .retiring k a => if k = none then none else some a
  | _ => none

/-- The member of the thread's context of role `r`, where the place of the thread tells it. -/
def context (r : Role) : RegPc → Option (Option Addr)
  | .attaching k _ | .storing k _ => if k = r then some none else none
  | .inserting a => if .worker = r then some (some a) else none
  | .startup a => if .scheduler = r then some (some a) else none
  | .ending k a | .dropping k a => if k = r then some (some a) else none
  | .removing k a | .retiring k a => if k = some r then some (some a) else none
  | _ => none

end RegPc

namespace Registry

variable {s s' : Registry} {r : Role} {t : Pid} {a : Addr}

def held (s : Registry) (r : Role) (t : Pid) : Option Addr :=
  (s.pc t).holds r (s.complist (r, t))

/-- The number of workers, or schedulers, that hold a reference to a list. -/
def holders (s : Registry) (r : Role) (a : Addr) : ℕ :=
  (s.table r).countP (fun t => s.held r t = some a)

/-- The number of live workers, or schedulers, that point to a list. -/
def attached (s : Registry) (r : Role) (a : Addr) : ℕ :=
  (s.table r).countP (fun t => s.complist (r, t) = some a)

def references (s : Registry) (a : Addr) : ℕ := s.holders .worker a + s.holders .scheduler a

/-- The tables hold each context once, from its creation on, and its member is assigned but at the
beginning of the enter. -/
structure TablesOk (s : Registry) : Prop where
  nodup : ∀ r, (s.table r).Nodup
  placed : ∀ r t m, (s.pc t).context r = some m → t ∈ s.table r ∧ s.complist (r, t) = m
  assigned : ∀ r t, t ∈ s.table r → s.complist (r, t) = none →
    (s.pc t).context r = some none ∨ s.pc t = .oops

/-- A step of thread `t` concerns its own contexts only. -/
theorem TablesOk.act (h : s.TablesOk) (p : RegPc) (hpc : s'.pc = Function.update s.pc t p)
    (hnodup : ∀ r, (s'.table r).Nodup)
    (htable : ∀ r u, u ≠ t → (u ∈ s'.table r ↔ u ∈ s.table r))
    (hcomplist : ∀ r u, u ≠ t → s'.complist (r, u) = s.complist (r, u))
    (hplaced : ∀ r m, p.context r = some m → t ∈ s'.table r ∧ s'.complist (r, t) = m)
    (hassigned : ∀ r, t ∈ s'.table r → s'.complist (r, t) = none →
      p.context r = some none ∨ p = .oops) : s'.TablesOk := by
  refine ⟨hnodup, fun r u m hu => ?_, fun r u hu hm => ?_⟩
  · rw [hpc] at hu
    by_cases hut : u = t
    · subst hut
      rw [Function.update_self] at hu
      exact hplaced r m hu
    · rw [Function.update_of_ne hut] at hu
      rw [htable r u hut, hcomplist r u hut]
      exact h.placed r u m hu
  · rw [hpc]
    by_cases hut : u = t
    · subst hut
      rw [Function.update_self]
      exact hassigned r hu hm
    · rw [htable r u hut] at hu
      rw [hcomplist r u hut] at hm
      rw [Function.update_of_ne hut]
      exact h.assigned r u hu hm

/-- Most steps leave the contexts alone, and the new place of the thread agrees with them. -/
theorem TablesOk.moved (h : s.TablesOk) (p : RegPc) (hpc : s'.pc = Function.update s.pc t p)
    (htable : s'.table = s.table) (hcomplist : s'.complist = s.complist)
    (hp : ∀ r m, p.context r = some m →
      (s.pc t).context r = some m ∨ t ∈ s.table r ∧ s.complist (r, t) = m)
    (hnew : ∀ r, (s.pc t).context r = some none ∨ s.pc t = .oops →
      p.context r = some none ∨ p = .oops) : s'.TablesOk := by
  apply h.act p hpc
  · rw [htable]
    exact h.nodup
  · exact fun r u _ => by rw [htable]
  · exact fun r u _ => by rw [hcomplist]
  · intro r m hm
    rw [htable, hcomplist]
    rcases hp r m hm with hold | hold
    · exact h.placed r t m hold
    · exact hold
  · intro r ht hm
    rw [htable] at ht
    rw [hcomplist] at hm
    exact hnew r (h.assigned r t ht hm)

/-- The new place of the thread says the same about its contexts. -/
theorem TablesOk.onward (h : s.TablesOk) (p : RegPc) (hpc : s'.pc = Function.update s.pc t p)
    (htable : s'.table = s.table) (hcomplist : s'.complist = s.complist)
    (hp : ∀ r, p.context r = (s.pc t).context r) (hne : s.pc t ≠ .oops) : s'.TablesOk := by
  refine h.moved p hpc htable hcomplist (fun r m hm => Or.inl ?_) (fun r hr => Or.inl ?_)
  · rw [← hp]
    exact hm
  · rw [hp]
    exact hr.resolve_right hne

theorem TablesOk.crash (h : s.TablesOk) (t : Pid) : (s.crash t).TablesOk :=
  h.moved (t := t) .oops rfl rfl rfl (fun _ _ hm => by cases hm) (fun _ _ => Or.inr rfl)

theorem enter_table (p : RegPc) (k : Role) :
    ((s.createContext t r).hold t a p).table k = if k = r then t :: s.table r else s.table k :=
  Function.update_apply s.table r (t :: s.table r) k

theorem enter_complist (p : RegPc) (k : Role) (u : Pid) :
    ((s.createContext t r).hold t a p).complist (k, u) =
      if k = r ∧ u = t then none else s.complist (k, u) := by
  refine (Function.update_apply s.complist (r, t) none (k, u)).trans ?_
  simp only [Prod.mk.injEq]

/-- The enter of a thread that is not in the table. -/
theorem TablesOk.enter (h : s.TablesOk) (ht : s.pc t = .user) (hnew : t ∉ s.table r) :
    ((s.createContext t r).hold t a (.attaching r a)).TablesOk := by
  apply h.act (t := t) (.attaching r a) rfl
  · intro k
    rw [enter_table]
    split
    · exact List.nodup_cons.mpr ⟨hnew, h.nodup r⟩
    · exact h.nodup k
  · intro k u hu
    rw [enter_table]
    split
    · rename_i hk
      simp [hk, hu]
    · rfl
  · intro k u hu
    rw [enter_complist, if_neg (fun hk => hu hk.2)]
  · intro k m hm
    rw [enter_table, enter_complist]
    simp only [RegPc.context] at hm
    split at hm
    · rename_i hk
      cases hm
      simp [hk]
    · cases hm
  · intro k hmem hm
    by_cases hk : k = r
    · simp [RegPc.context, hk]
    · rw [enter_table, if_neg hk] at hmem
      rw [enter_complist, if_neg (fun h => hk h.1)] at hm
      -- a thread in user mode has its other context complete
      have hold := h.assigned k t hmem hm
      simp [ht, RegPc.context] at hold

/-- The pointer is stored in the new context. -/
theorem TablesOk.stored (h : s.TablesOk) (ht : s.pc t = .storing r a) (p : RegPc)
    (hpc : s'.pc = Function.update s.pc t p) (htable : s'.table = s.table)
    (hcomplist : s'.complist = Function.update s.complist (r, t) (some a))
    (hp : ∀ k, p.context k = if r = k then some (some a) else none) : s'.TablesOk := by
  apply h.act p hpc
  · rw [htable]
    exact h.nodup
  · exact fun k u _ => by rw [htable]
  · exact fun k u hu => by rw [hcomplist, Function.update_of_ne (by simp [hu])]
  · intro k m hm
    rw [hp] at hm
    split at hm
    · rename_i hk
      subst hk
      cases hm
      rw [htable, hcomplist, Function.update_self]
      exact ⟨(h.placed r t none (by simp [ht, RegPc.context])).1, rfl⟩
    · cases hm
  · intro k hmem hm
    rw [htable] at hmem
    rw [hcomplist] at hm
    by_cases hk : k = r
    · subst hk
      rw [Function.update_self] at hm
      cases hm
    · rw [Function.update_of_ne (by simp [hk])] at hm
      have hold := h.assigned k t hmem hm
      simp [ht, RegPc.context, Ne.symm hk] at hold

/-- The context is removed from its table. -/
theorem TablesOk.drop (h : s.TablesOk) (ht : s.pc t = .dropping r a)
    (hpc : s'.pc = Function.update s.pc t .user) (hcomplist : s'.complist = s.complist)
    (htable : s'.table = Function.update s.table r ((s.table r).erase t)) : s'.TablesOk := by
  have hsub (k : Role) (u : Pid) (hu : u ∈ s'.table k) : u ∈ s.table k := by
    rw [htable] at hu
    by_cases hk : k = r
    · subst hk
      rw [Function.update_self] at hu
      exact List.mem_of_mem_erase hu
    · rwa [Function.update_of_ne hk] at hu
  apply h.act .user hpc
  · intro k
    rw [htable]
    by_cases hk : k = r
    · subst hk
      rw [Function.update_self]
      exact (h.nodup k).erase t
    · rw [Function.update_of_ne hk]
      exact h.nodup k
  · intro k u hu
    refine ⟨hsub k u, fun hmem => ?_⟩
    rw [htable]
    by_cases hk : k = r
    · subst hk
      rw [Function.update_self]
      exact (List.mem_erase_of_ne hu).mpr hmem
    · rwa [Function.update_of_ne hk]
  · exact fun k u _ => by rw [hcomplist]
  · exact fun k m hm => by cases hm
  · intro k hmem hm
    rw [hcomplist] at hm
    -- a context that is being destroyed has its member
    have hold := h.assigned k t (hsub k t hmem) hm
    rw [ht] at hold
    simp only [RegPc.context, reduceCtorEq, or_false] at hold
    split at hold <;> cases hold

/-- Where a put that is not the last one returns to. -/
def afterPut (a : Addr) : Option Role → RegPc
  | none => .user
  | some r => .dropping r a

theorem context_afterPut (k : Option Role) (r : Role) :
    (afterPut a k).context r = if k = some r then some (some a) else none := by
  cases k with
  | none => rfl
  | some k => simp [afterPut, RegPc.context]

theorem holds_afterPut (k : Option Role) (r : Role) (m : Option Addr) :
    (afterPut a k).holds r m = if k = some r then none else m := by
  cases k with
  | none => rfl
  | some k => simp [afterPut, RegPc.holds]

theorem putReturns_eq (k : Option Role) : ∃ R U, s.putReturns t a k =
    { s with pc := Function.update s.pc t (afterPut a k), readers := R, inUse := U } := by
  cases k with
  | none => exact ⟨_, _, rfl⟩
  | some r => exact ⟨_, _, rfl⟩

/-- `put_ums_complist`, by what it does to the count. -/
theorem putUmsComplist_eq (o : UmsComplist) (k : Option Role) : ∃ p n R U,
    s.putUmsComplist t a o k = { s with
      pc := Function.update s.pc t p
      obj := Function.update s.obj a (some { o with refcount := o.refcount - 1 })
      releases := Function.update s.releases a n
      readers := R
      inUse := U } ∧
    ((o.refcount - 1 = 0 ∧ p = .removing k a ∧ n = s.releases a + 1) ∨
      (o.refcount - 1 ≠ 0 ∧ p = afterPut a k ∧ n = s.releases a)) := by
  rw [putUmsComplist]
  split
  · rename_i he
    exact ⟨_, _, _, _, rfl, Or.inl ⟨he, rfl, rfl⟩⟩
  · rename_i hne
    obtain ⟨R, U, heq⟩ := putReturns_eq (t := t) (a := a)
      (s := { s with obj := Function.update s.obj a (some { o with refcount := o.refcount - 1 }) })
      k
    refine ⟨_, s.releases a, R, U, ?_, Or.inr ⟨hne, rfl, rfl⟩⟩
    rw [heq, Function.update_eq_self]

theorem putReturns_fault (k : Option Role) : (s.putReturns t a k).fault = s.fault := by
  obtain ⟨R, U, heq⟩ := putReturns_eq (s := s) (t := t) (a := a) k
  rw [heq]

theorem putUmsComplist_fault (o : UmsComplist) (k : Option Role) :
    (s.putUmsComplist t a o k).fault = s.fault := by
  obtain ⟨p, n, R, U, heq, -⟩ := putUmsComplist_eq (s := s) (t := t) (a := a) o k
  rw [heq]

theorem putUmsComplist_deletes (o : UmsComplist) (k : Option Role) :
    (s.putUmsComplist t a o k).deletes = s.deletes := by
  obtain ⟨p, n, R, U, heq, -⟩ := putUmsComplist_eq (s := s) (t := t) (a := a) o k
  rw [heq]

theorem TablesOk.putUmsComplist (h : s.TablesOk) (o : UmsComplist) (k : Option Role) (d : Addr → ℕ)
    (hk : ∀ r, (s.pc t).context r = if k = some r then some (some a) else none)
    (hne : s.pc t ≠ .oops) :
    ({ s with deletes := d }.putUmsComplist t a o k).TablesOk := by
  obtain ⟨p, n, R, U, heq, hcase⟩ :=
    putUmsComplist_eq (s := { s with deletes := d }) (t := t) (a := a) o k
  have hp (r : Role) : p.context r = if k = some r then some (some a) else none := by
    rcases hcase with ⟨-, rfl, -⟩ | ⟨-, rfl, -⟩
    · rfl
    · exact context_afterPut k r
  rw [heq]
  exact h.onward p rfl rfl rfl (fun r => (hp r).trans (hk r).symm) hne

theorem TablesOk.step (h : s.TablesOk) (act : RegAct) (hok : OrderlyLookup s act)
    (hs : s.step act = some s') : s'.TablesOk := by
  -- a thread with complete contexts goes to a place that says nothing about them
  have hplain {t : Pid} {s' : Registry} (q p : RegPc) (ht : s.pc t = q)
      (hpc : s'.pc = Function.update s.pc t p) (htable : s'.table = s.table)
      (hcomplist : s'.complist = s.complist)
      (hq : ∀ r, ¬ (q.context r = some none ∨ q = .oops) ∧ p.context r = none) : s'.TablesOk := by
    refine h.moved p hpc htable hcomplist (fun r m hm => ?_) (fun r hr => ?_)
    · rw [(hq r).2] at hm
      cases hm
    · rw [ht] at hr
      exact absurd hr (hq r).1
  cases step_steps hs with
  | deleteNone | dequeueNone | endNone => exact h
  | enterNone t r i ht hnone => exact absurd hnone hok.1
  | endUnassigned t | runBreaks t | copyBreaks t => exact h.crash t
  | publish t i ht | delete t i a ht | dequeue t i a ht | created t a i ht | insert t a h' ht
  | started t a ht | take t a c h' ht | report t a c ht | discard t a i o ht | putBack t a c h' ht
  | interrupt t a ht | resume t ht =>
    exact hplain _ _ ht rfl rfl rfl (by simp [RegPc.context])
  | initStep t a i op ops o ht ho =>
    rw [initStep_eq i o op ho]
    exact hplain _ _ ht rfl rfl rfl (by simp [RegPc.context])
  | enter t r i a ht hnew hidr => exact h.enter ht hnew
  | endWorker t a ht hw hc =>
    refine h.moved (t := t) (.ending .worker a) rfl rfl rfl (fun r m hm => Or.inr ?_)
      (fun r hr => ?_)
    · simp only [RegPc.context] at hm
      split at hm
      · rename_i hr
        subst hr
        cases hm
        exact ⟨hw, hc⟩
      · cases hm
    · simp [ht, RegPc.context] at hr
  | get t r a o ht ho =>
    exact h.onward (t := t) (.storing r a) rfl rfl rfl (fun _ => by rw [ht]; rfl) (by simp [ht])
  | storeWorker t a ht => exact h.stored ht (.inserting a) rfl rfl rfl (fun _ => rfl)
  | storeScheduler t a ht => exact h.stored ht (.startup a) rfl rfl rfl (fun _ => rfl)
  | putDeleted t a o ht ho =>
    exact h.putUmsComplist o none _ (by simp [ht, RegPc.context]) (by simp [ht])
  | putEnded t r a o ht ho =>
    exact h.putUmsComplist o (some r) s.deletes (by simp [ht, RegPc.context]) (by simp [ht])
  | remove t k a o ht ho =>
    exact h.onward (t := t) (.retiring k a) rfl rfl rfl (fun _ => by rw [ht]; rfl) (by simp [ht])
  | retire t k a ht =>
    obtain ⟨R, U, heq⟩ := putReturns_eq (s := s) (t := t) (a := a) k
    rw [heq]
    refine h.onward (t := t) (afterPut a k) rfl rfl rfl (fun r => ?_) (by simp [ht])
    rw [ht, context_afterPut]
    rfl
  | drop t r a ht => exact h.drop ht rfl rfl rfl
  | noEvent t a ht =>
    exact h.onward (t := t) (.ending .scheduler a) rfl rfl rfl (fun _ => by rw [ht]; rfl)
      (by simp [ht])
  | free a hret => exact ⟨h.nodup, h.placed, h.assigned⟩

/-- If nobody's reference changes, then no count of references does. -/
theorem references_congr (htable : s'.table = s.table)
    (hheld : ∀ r u, u ∈ s.table r → s'.held r u = s.held r u) (a : Addr) :
    s'.references a = s.references a := by
  have hrole (r : Role) : s'.holders r a = s.holders r a := by
    rw [holders, htable]
    exact List.countP_congr fun u hu => by rw [hheld r u hu]
  rw [references, hrole, hrole, references]

theorem references_moved (p : RegPc) (hpc : s'.pc = Function.update s.pc t p)
    (htable : s'.table = s.table) (hcomplist : s'.complist = s.complist)
    (hp : ∀ r m, p.holds r m = (s.pc t).holds r m) (a : Addr) :
    s'.references a = s.references a := by
  refine references_congr htable (fun r u _ => ?_) a
  rw [held, held, hpc, hcomplist]
  by_cases hut : u = t
  · subst hut
    rw [Function.update_self, hp]
  · rw [Function.update_of_ne hut]

/-- A context of the table gets a reference. -/
theorem references_gain (hn : (s.table r).Nodup) (ht : t ∈ s.table r) (htable : s'.table = s.table)
    (hoff : ∀ k u, (k, u) ≠ (r, t) → s'.held k u = s.held k u) (h0 : s.held r t = none)
    (h1 : s'.held r t = some a) (b : Addr) :
    s'.references b = s.references b + if b = a then 1 else 0 := by
  have hsame (k : Role) (hk : k ≠ r) : s'.holders k b = s.holders k b := by
    rw [holders, htable]
    exact List.countP_congr fun u _ => by rw [hoff k u (by simp [hk])]
  have hperm := List.perm_cons_erase ht
  have hrest : ((s.table r).erase t).countP (fun u => s'.held r u = some b) =
      ((s.table r).erase t).countP (fun u => s.held r u = some b) := by
    refine List.countP_congr fun u hu => ?_
    have hne : u ≠ t := fun he => (hn.not_mem_erase) (he ▸ hu)
    rw [hoff r u (by simp [hne])]
  have hgain : s'.holders r b = s.holders r b + if b = a then 1 else 0 := by
    rw [holders, holders, htable, hperm.countP_eq, hperm.countP_eq, List.countP_cons,
      List.countP_cons, hrest, h0, h1]
    simp [eq_comm]
  cases r with
  | worker =>
    rw [references, references, hgain, hsame .scheduler (by simp)]
    omega
  | scheduler =>
    rw [references, references, hgain, hsame .worker (by simp)]
    omega

/-- A context without a reference enters its table. -/
theorem references_insert (hperm : (s'.table r).Perm (t :: s.table r))
    (htable : ∀ k, k ≠ r → s'.table k = s.table k) (h0 : s'.held r t = none)
    (hheld : ∀ k u, u ∈ s.table k → s'.held k u = s.held k u) (a : Addr) :
    s'.references a = s.references a := by
  have hrole (k : Role) : s'.holders k a = s.holders k a := by
    have hcongr : (s.table k).countP (fun u => s'.held k u = some a) = s.holders k a :=
      List.countP_congr fun u hu => by rw [hheld k u hu]
    by_cases hk : k = r
    · subst hk
      rw [holders, hperm.countP_eq, List.countP_cons, hcongr, h0]
      simp
    · rw [holders, htable k hk, hcongr]
  rw [references, hrole, hrole, references]

/-- The reference of an enter becomes that of its context when the pointer is stored. -/
theorem references_stored (ht : s.pc t = .storing r a) (p : RegPc)
    (hpc : s'.pc = Function.update s.pc t p) (htable : s'.table = s.table)
    (hcomplist : s'.complist = Function.update s.complist (r, t) (some a))
    (hp : ∀ k m, p.holds k m = m) (b : Addr) : s'.references b = s.references b := by
  refine references_congr htable (fun k u _ => ?_) b
  rw [held, held, hpc, hcomplist]
  by_cases hut : u = t
  · subst hut
    rw [Function.update_self, hp, ht]
    by_cases hk : k = r
    · simp [RegPc.holds, hk]
    · simp [RegPc.holds, hk, Ne.symm hk]
  · rw [Function.update_of_ne hut, Function.update_of_ne (by simp [hut])]

theorem references_enter (ht : s.pc t = .user) (hnew : t ∉ s.table r) (b : Addr) :
    ((s.createContext t r).hold t a (.attaching r a)).references b = s.references b := by
  have hpc : ((s.createContext t r).hold t a (.attaching r a)).pc =
      Function.update s.pc t (.attaching r a) := rfl
  refine references_insert (r := r) (t := t) ?_ (fun k hk => ?_) ?_ (fun k u hu => ?_) b
  · rw [enter_table, if_pos rfl]
  · rw [enter_table, if_neg hk]
  · rw [held, enter_complist, if_pos ⟨rfl, rfl⟩, hpc, Function.update_self]
    rfl
  · have hold : ¬(k = r ∧ u = t) := by
      rintro ⟨rfl, rfl⟩
      exact hnew hu
    rw [held, held, enter_complist, if_neg hold, hpc]
    by_cases hut : u = t
    · rw [hut, Function.update_self, ht]
      rfl
    · rw [Function.update_of_ne hut]

/-- The context that is removed from its table has given its reference back before. -/
theorem references_drop (hn : (s.table r).Nodup) (hmem : t ∈ s.table r)
    (ht : s.pc t = .dropping r a) (hpc : s'.pc = Function.update s.pc t .user)
    (hcomplist : s'.complist = s.complist)
    (htable : s'.table = Function.update s.table r ((s.table r).erase t)) (b : Addr) :
    s'.references b = s.references b := by
  symm
  refine references_insert (r := r) (t := t) ?_ (fun k hk => ?_) ?_ (fun k u hu => ?_) b
  · rw [htable, Function.update_self]
    exact List.perm_cons_erase hmem
  · rw [htable, Function.update_of_ne hk]
  · simp [held, ht, RegPc.holds]
  · rw [held, held, hpc, hcomplist]
    by_cases hut : u = t
    · subst hut
      have hk : r ≠ k := by
        rintro rfl
        rw [htable, Function.update_self] at hu
        exact hn.not_mem_erase hu
      simp [ht, RegPc.holds, hk]
    · rw [Function.update_of_ne hut]

/-- A context gives its reference back in its destroy function. -/
theorem references_putEnded (htab : s.TablesOk) (ht : s.pc t = .ending r a) (o : UmsComplist)
    (b : Addr) :
    s.references b = (s.putUmsComplist t a o (some r)).references b + if b = a then 1 else 0 := by
  obtain ⟨hmem, hm⟩ := htab.placed r t (some a) (by simp [ht, RegPc.context])
  obtain ⟨p, n, R, U, heq, hcase⟩ := putUmsComplist_eq (s := s) (t := t) (a := a) o (some r)
  have hp (k : Role) (m : Option Addr) : p.holds k m = if r = k then none else m := by
    rcases hcase with ⟨-, rfl, -⟩ | ⟨-, rfl, -⟩
    · simp [RegPc.holds]
    · rw [holds_afterPut]
      simp
  rw [heq]
  -- the other way round, the context would get its reference
  apply references_gain (r := r) (t := t)
  · exact htab.nodup r
  · exact hmem
  · rfl
  · intro k u hku
    by_cases hut : u = t
    · subst hut
      have hk : r ≠ k := fun hk => hku (by rw [hk])
      rw [held, held, ht]
      simp only [Function.update_self, hp, if_neg hk]
      rfl
    · simp [held, hut]
  · simp [held, hp]
  · simp [held, ht, RegPc.holds, hm]

theorem references_pos (ht : t ∈ s.table r) (hh : s.held r t = some a) : 0 < s.references a := by
  have hrole : 0 < s.holders r a := List.countP_pos_iff.mpr ⟨t, ht, by simpa using hh⟩
  rw [references]
  cases r with
  | worker => omega
  | scheduler => omega

/-- Off the two windows a context holds a reference to the list it points to. -/
theorem TablesOk.held_iff (h : s.TablesOk) (hb : (s.pc t).between ≠ some a) :
    s.held r t = some a ↔ s.complist (r, t) = some a := by
  have hplaced := h.placed r t
  rw [held]
  cases ht : s.pc t with
  | storing k b =>
    rw [ht] at hb hplaced
    simp only [RegPc.holds]
    split
    · rename_i hk
      have hm := (hplaced none (by simp [RegPc.context, hk])).2
      simp only [RegPc.between] at hb
      simp [hm, hb]
    · rfl
  | dropping k b =>
    rw [ht] at hb hplaced
    simp only [RegPc.holds]
    split
    · rename_i hk
      have hm := (hplaced (some b) (by simp [RegPc.context, hk])).2
      simp only [RegPc.between] at hb
      simp [hm, hb]
    · rfl
  | removing k b | retiring k b =>
    rw [ht] at hb hplaced
    simp only [RegPc.holds]
    split
    · rename_i hk
      have hm := (hplaced (some b) (by simp [RegPc.context, hk])).2
      simp only [RegPc.between, hk] at hb
      simp only [hm]
      simpa using hb
    · rfl
  | _ => rfl

/-- A context that points to a list holds a reference to it, or has given it back. -/
theorem TablesOk.held_cases (h : s.TablesOk) (hm : s.complist (r, t) = some a) :
    s.held r t = some a ∨ s.held r t = none := by
  have hplaced := h.placed r t
  rw [held, hm]
  cases ht : s.pc t with
  | storing k b =>
    rw [ht] at hplaced
    simp only [RegPc.holds]
    split
    · rename_i hk
      have hnone := (hplaced none (by simp [RegPc.context, hk])).2
      cases hm.symm.trans hnone
    · exact Or.inl rfl
  | removing k b | retiring k b | dropping k b =>
    simp only [RegPc.holds]
    split
    · exact Or.inr rfl
    · exact Or.inl rfl
  | _ => exact Or.inl rfl

theorem TablesOk.holders_eq (h : s.TablesOk) (hb : ∀ t, (s.pc t).between ≠ some a) (r : Role) :
    s.holders r a = s.attached r a :=
  List.countP_congr fun t _ => by simpa using h.held_iff (hb t)

end Registry

end LinuxUms
