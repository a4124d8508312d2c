import LinuxUms.Holders
import LinuxUms.Initialisation

/-! The reference count of a completion list is the number of those who hold a reference to it, less
the deletes beyond the first, and so nobody reaches a list that has been freed unless it has been
deleted twice. -/
namespace LinuxUms

open KernelList

namespace RegPc

/-- The list that the thread is releasing. -/
def releasing : RegPc → Option Addr
  | .removing _ a | .retiring _ a => some a
  | _ => none

/-- A thread at a place outside a release; the others do what they did. -/
theorem releasing_of_update {pc : Pid → RegPc} {p : RegPc} {t u : Pid} {b : Addr}
    (hp : p.releasing = none) (hu : (Function.update pc t p u).releasing = some b) :
    u ≠ t ∧ (pc u).releasing = some b := by
  by_cases hut : u = t
  · subst hut
    rw [Function.update_self, hp] at hu
    cases hu
  · rw [Function.update_of_ne hut] at hu
    exact ⟨hut, hu⟩

end RegPc

namespace Registry

variable {s s' : Registry} {r : Role} {t : Pid} {a : Addr}

/-- The references to the list at one address: one of the creator, less the deletes, and one for
every context that holds one. A list that is released under a context has been deleted twice. -/
structure RefsOk (s : Registry) (a : Addr) : Prop where
  refcount : ∀ o, s.obj a = some o → s.ready a = true → s.releases a = 0 →
    o.refcount = 1 - s.deletes a + s.references a
  spent : s.releases a ≠ 0 → s.references a + 1 ≤ s.deletes a

theorem RefsOk.frame (h : s.RefsOk a) (ho : s'.obj a = s.obj a ∧ s'.ready a = s.ready a ∧
      s'.releases a = s.releases a ∧ s'.deletes a = s.deletes a)
    (hr : s'.references a = s.references a) : s'.RefsOk a := by
  obtain ⟨h₁, h₂, h₃, h₄⟩ := ho
  constructor
  · rw [h₁, h₂, h₃, h₄, hr]
    exact h.refcount
  · rw [h₃, h₄, hr]
    exact h.spent

/-- Most steps leave the references alone. -/
theorem RefsOk.same (h : ∀ b, s.RefsOk b) (b : Addr) (ho : s'.obj = s.obj)
    (hr : s'.ready = s.ready) (hrel : s'.releases = s.releases) (hd : s'.deletes = s.deletes)
    (href : s'.references b = s.references b) : s'.RefsOk b :=
  (h b).frame (by rw [ho, hr, hrel, hd]; exact ⟨rfl, rfl, rfl, rfl⟩) href

/-- A change to the object of a list that is not ready, by a thread that is at no reference. -/
theorem RefsOk.unready (h : ∀ b, s.RefsOk b) (p : RegPc) (hpc : s'.pc = Function.update s.pc t p)
    (htable : s'.table = s.table) (hcomplist : s'.complist = s.complist)
    (hp : ∀ r m, p.holds r m = (s.pc t).holds r m) (ha : s.ready a = false)
    (h0 : s.releases a = 0) (hd : s'.deletes = s.deletes)
    (hobj : ∀ b, b ≠ a → s'.obj b = s.obj b) (hr : s'.ready = s.ready)
    (hrel : s'.releases = s.releases) (b : Addr) : s'.RefsOk b := by
  by_cases hb : b = a
  · subst hb
    rw [← hr] at ha
    rw [← hrel] at h0
    refine ⟨fun _ _ hready => ?_, fun hne => absurd h0 hne⟩
    rw [ha] at hready
    cases hready
  · exact (h b).frame ⟨hobj b hb, by rw [hr], by rw [hrel], by rw [hd]⟩
      (references_moved p hpc htable hcomplist hp b)

/-- Nobody holds a reference to a list that is not ready. -/
theorem Inv.unheld (hi : s.Inv) (ha : s.ready a = false) : s.references a = 0 := by
  have hnot (r : Role) (u : Pid) : s.held r u ≠ some a := by
    have hmember : s.complist (r, u) ≠ some a := fun hm =>
      Bool.false_ne_true (ha.symm.trans ((hi.list a).member r u hm))
    have hk := hi.knows u
    rw [held]
    cases hp : s.pc u with
    | storing k b =>
      rw [hp] at hk
      simp only [RegPc.holds]
      split
      · rintro ⟨⟩
        exact Bool.false_ne_true (ha.symm.trans hk.1)
      · exact hmember
    | removing k b | retiring k b | dropping k b =>
      simp only [RegPc.holds]
      split
      · simp
      · exact hmember
    | _ => exact hmember
  have hrole (r : Role) : s.holders r a = 0 :=
    List.countP_eq_zero.mpr fun u _ => by simpa using hnot r u
  rw [references, hrole, hrole]

theorem RefsOk.created (h : ∀ b, s.RefsOk b) (hi : s.Inv) {i : ListId}
    (ht : s.pc t = .creating a i []) (b : Addr) :
    ({ s.setPc t .user with ready := Function.update s.ready a true } : Registry).RefsOk b := by
  have href : ({ s.setPc t .user with ready := Function.update s.ready a true } :
      Registry).references b = s.references b :=
    references_moved .user (by rfl) (by rfl) (by rfl) (fun _ _ => by rw [ht]; rfl) b
  by_cases hb : b = a
  · subst hb
    obtain ⟨hr, h0, hd, -, -⟩ := hi.alone ht
    have hk := hi.knows t
    rw [ht] at hk
    obtain ⟨-, -, -, -, -, o, ho, hcount⟩ := hk
    refine ⟨fun o' ho' _ _ => ?_, fun hne => absurd h0 hne⟩
    obtain rfl := Option.some.inj (ho.symm.trans ho')
    rw [href, hi.unheld hr]
    simp [Registry.setPc, hd, hcount]
  · exact (h b).frame ⟨rfl, by simp [hb], rfl, rfl⟩ href

/-- A reference is taken, by a context of the table that had none. -/
theorem RefsOk.get (h : ∀ b, s.RefsOk b) (htab : s.TablesOk) (ht : s.pc t = .attaching r a)
    (o : UmsComplist) (ho : s.obj a = some o) (h0 : s.releases a = 0) (ha : s.ready a = true)
    (b : Addr) : (((s.getUmsComplist a o).unlock t a).setPc t (.storing r a)).RefsOk b := by
  obtain ⟨hmem, hm⟩ := htab.placed r t none (by simp [ht, RegPc.context])
  have href (b : Addr) :
      (((s.getUmsComplist a o).unlock t a).setPc t (.storing r a)).references b =
        s.references b + if b = a then 1 else 0 := by
    refine references_gain (htab.nodup r) hmem (by rfl) (fun k u hku => ?_) ?_ ?_ b
    · by_cases hut : u = t
      · subst hut
        have hk : r ≠ k := fun hk => hku (by rw [hk])
        simp [held, getUmsComplist, unlock, Registry.setPc, RegPc.holds, ht, hk]
      · simp [held, getUmsComplist, unlock, Registry.setPc, hut]
    · simp [held, ht, RegPc.holds, hm]
    · simp [held, Registry.setPc, RegPc.holds]
  have hcount := (h a).refcount o ho ha h0
  by_cases hb : b = a
  · subst hb
    refine ⟨fun o' ho' _ _ => ?_, fun hne => absurd h0 hne⟩
    simp only [getUmsComplist, unlock, Registry.setPc, Function.update_self,
      Option.some.injEq] at ho'
    rw [href, if_pos rfl, ← ho']
    simp only [getUmsComplist, unlock, Registry.setPc]
    omega
  · refine (h b).frame ⟨?_, rfl, rfl, rfl⟩ ((href b).trans (by simp [hb]))
    simp [getUmsComplist, unlock, Registry.setPc, hb]

/-- The put that brings the count to zero is the first one to do so. -/
theorem Inv.unreleased_of_last (hi : s.Inv) {o : UmsComplist} (ho : s.obj a = some o)
    (he : o.refcount - 1 = 0) : s.releases a = 0 := by
  by_contra hne
  have hle := (hi.list a).spent o hne ho
  omega

/-- A put that is paid for, by a delete or by a context that gives its reference back. `n` are the
references afterwards. -/
theorem RefsOk.putUmsComplist (h : ∀ b, s.RefsOk b) (hi : s.Inv) (o : UmsComplist)
    (ho : s.obj a = some o) (ha : s.ready a = true) (k : Option Role) (d : ℕ) (n : Addr → ℕ)
    (hn : ∀ b, ({ s with deletes := Function.update s.deletes a d }.putUmsComplist t a o
      k).references b = n b)
    (hpaid : (d : ℤ) + s.references a = s.deletes a + n a + 1)
    (hoff : ∀ b, b ≠ a → n b = s.references b) (hd : s.deletes a ≤ d) (b : Addr) :
    ({ s with deletes := Function.update s.deletes a d }.putUmsComplist t a o k).RefsOk b := by
  obtain ⟨p, m, R, U, heq, hcase⟩ := putUmsComplist_eq (t := t) (a := a)
    (s := { s with deletes := Function.update s.deletes a d }) o k
  rw [heq] at hn ⊢
  by_cases hb : b = a
  · subst hb
    have hlive := (h b).refcount o ho ha
    constructor
    · intro o' ho' _ hrel
      rw [hn]
      simp only [Function.update_self, Option.some.injEq] at ho' hrel ⊢
      rw [← ho']
      rcases hcase with ⟨-, -, rfl⟩ | ⟨-, -, rfl⟩
      · exact absurd hrel (Nat.succ_ne_zero _)
      · have hold := hlive hrel
        simp only
        omega
    · intro hrel
      rw [hn]
      simp only [Function.update_self] at hrel ⊢
      rcases hcase with ⟨he, -, rfl⟩ | ⟨-, -, rfl⟩
      · -- the count has just come to zero
        have hold := hlive (hi.unreleased_of_last ho he)
        omega
      · have hold := (h b).spent hrel
        omega
  · exact (h b).frame ⟨by simp [hb], rfl, by simp [hb], by simp [hb]⟩ ((hn b).trans (hoff b hb))

/-- A thread that releases a list is alone in doing so, and the list is not freed under it. -/
structure ReleaseOk (s : Registry) : Prop where
  held : ∀ t a, (s.pc t).releasing = some a → s.obj a ≠ none ∧ s.retired a = false
  alone : ∀ t u a, (s.pc t).releasing = some a → (s.pc u).releasing = some a → t = u

theorem ReleaseOk.frame (h : s.ReleaseOk)
    (hpc : ∀ u a, (s'.pc u).releasing = some a → (s.pc u).releasing = some a)
    (hkeep : ∀ u a, (s'.pc u).releasing = some a → s.obj a ≠ none → s.retired a = false →
      s'.obj a ≠ none ∧ s'.retired a = false) : s'.ReleaseOk where
  held u a hu := hkeep u a hu (h.held u a (hpc u a hu)).1 (h.held u a (hpc u a hu)).2
  alone u v a hu hv := h.alone u v a (hpc u a hu) (hpc v a hv)

/-- A thread moves to a place outside a release, or goes on with its own, and no object
disappears. -/
theorem ReleaseOk.moved (h : s.ReleaseOk) (p : RegPc) (hpc : s'.pc = Function.update s.pc t p)
    (hp : ∀ a, p.releasing = some a → (s.pc t).releasing = some a)
    (hobj : ∀ a, s.obj a ≠ none → s'.obj a ≠ none) (hret : s'.retired = s.retired) :
    s'.ReleaseOk := by
  apply h.frame
  · intro u a hu
    rw [hpc] at hu
    by_cases hut : u = t
    · subst hut
      rw [Function.update_self] at hu
      exact hp a hu
    · rwa [Function.update_of_ne hut] at hu
  · intro u a _ ho hr
    exact ⟨hobj a ho, by rw [hret]; exact hr⟩

theorem obj_update_ne_none (o : UmsComplist) (b : Addr) (hb : s.obj b ≠ none) :
    Function.update s.obj a (some o) b ≠ none := by
  by_cases hba : b = a
  · simp [hba]
  · rwa [Function.update_of_ne hba]

theorem releasing_afterPut (k : Option Role) : (afterPut a k).releasing = none := by
  cases k <;> rfl

/-- Only a list whose count has reached zero is being released. -/
theorem Inv.releasing (hi : s.Inv) (ht : (s.pc t).releasing = some a) : s.releases a ≠ 0 := by
  have hk := hi.knows t
  cases hp : s.pc t <;> rw [hp] at ht hk <;> simp [RegPc.releasing] at ht
  · exact ht ▸ hk
  · exact ht ▸ hk

theorem ReleaseOk.putUmsComplist (h : s.ReleaseOk) (hi : s.Inv) (o : UmsComplist)
    (ho : s.obj a = some o) (k : Option Role) (d : Addr → ℕ) :
    ({ s with deletes := d }.putUmsComplist t a o k).ReleaseOk := by
  obtain ⟨p, n, R, U, heq, hcase⟩ := putUmsComplist_eq (t := t) (a := a)
    (s := { s with deletes := d }) o k
  rw [heq]
  rcases hcase with ⟨he, rfl, -⟩ | ⟨-, rfl, -⟩
  · have h0 := hi.unreleased_of_last ho he
    have hnone (u : Pid) : (s.pc u).releasing ≠ some a := fun hu => hi.releasing hu h0
    have hret : s.retired a = false := by
      cases hr : s.retired a with
      | false => rfl
      | true => exact absurd h0 ((hi.list a).retired hr)
    -- the thread that releases `b` is `t` if `b` is `a`, and otherwise it did so before
    have hcase (u : Pid) (b : Addr)
        (hu : (Function.update s.pc t (.removing k a) u).releasing = some b) :
        (u = t ∧ b = a) ∨ (b ≠ a ∧ (s.pc u).releasing = some b) := by
      by_cases hut : u = t
      · subst hut
        rw [Function.update_self] at hu
        exact Or.inl ⟨rfl, (Option.some.inj hu).symm⟩
      · rw [Function.update_of_ne hut] at hu
        exact Or.inr ⟨fun he => hnone u (he ▸ hu), hu⟩
    constructor
    · intro u b hu
      rcases hcase u b hu with ⟨-, rfl⟩ | ⟨hb, hu⟩
      · exact ⟨by simp, hret⟩
      · obtain ⟨ho, hr⟩ := h.held u b hu
        exact ⟨obj_update_ne_none _ b ho, hr⟩
    · intro u v b hu hv
      rcases hcase u b hu with ⟨rfl, rfl⟩ | ⟨hb, hu⟩ <;>
        rcases hcase v _ hv with ⟨hv, hb'⟩ | ⟨hb', hv⟩
      · exact hv.symm
      · exact absurd rfl hb'
      · exact absurd hb' hb
      · exact h.alone u v b hu hv
  · refine h.moved (t := t) (afterPut a k) rfl (fun b hb => ?_) (obj_update_ne_none _) rfl
    rw [releasing_afterPut] at hb
    cases hb

theorem ReleaseOk.step (h : s.ReleaseOk) (hi : s.Inv) (act : RegAct)
    (hs : s.step act = some s') : s'.ReleaseOk := by
  have hmove {t : Pid} {s' : Registry} (p : RegPc) (hp : p.releasing = none)
      (hpc : s'.pc = Function.update s.pc t p) (hobj : ∀ a, s.obj a ≠ none → s'.obj a ≠ none)
      (hret : s'.retired = s.retired) : s'.ReleaseOk := by
    refine h.moved (t := t) p hpc (fun a ha => ?_) hobj hret
    rw [hp] at ha
    cases ha
  cases step_steps hs with
  | deleteNone | dequeueNone | endNone => exact h
  | enterNone | endUnassigned | runBreaks | copyBreaks | enter | delete | dequeue | endWorker
  | storeWorker | storeScheduler | insert | started | take | created | report | drop | putBack
  | interrupt | noEvent | resume => exact hmove _ rfl rfl (fun _ ho => ho) rfl
  | publish | get => exact hmove _ rfl rfl (obj_update_ne_none _) rfl
  | initStep t a i op ops o ht ho =>
    rw [initStep_eq i o op ho]
    exact hmove _ rfl rfl (obj_update_ne_none _) rfl
  | putDeleted t a o ht ho => exact h.putUmsComplist hi o ho none _
  | putEnded t r a o ht ho => exact h.putUmsComplist hi o ho (some r) s.deletes
  | remove t k a o ht ho =>
    -- the thread goes on with its own release
    refine h.moved (t := t) (.retiring k a) rfl ?_ (fun _ ho => ho) rfl
    rw [ht]
    exact fun b hb => hb
  | retire t k a ht =>
    obtain ⟨R, U, heq⟩ := putReturns_eq (s := s) (t := t) (a := a) k
    rw [heq]
    refine h.frame (fun u b hu => (RegPc.releasing_of_update (releasing_afterPut k) hu).2) ?_
    intro u b hu ho hr
    obtain ⟨hut, hur⟩ := RegPc.releasing_of_update (releasing_afterPut k) hu
    have hb : b ≠ a := by
      rintro rfl
      exact hut (h.alone u t b hur (by rw [ht]; rfl))
    exact ⟨ho, by simp only [Function.update_of_ne hb]; exact hr⟩
  | discard t a i o ht ho =>
    refine h.frame (fun u b hu => (RegPc.releasing_of_update rfl hu).2) ?_
    intro u b hu ho hr
    -- the list that is given up has never been released
    have hb : b ≠ a := by
      rintro rfl
      exact hi.releasing (RegPc.releasing_of_update rfl hu).2 (hi.alone ht).2.1
    exact ⟨by simp only [Registry.setPc, Function.update_of_ne hb]; exact ho, hr⟩
  | free a hret =>
    refine h.frame (fun _ _ hu => hu) ?_
    intro u b hu ho hr
    have hb : b ≠ a := by
      rintro rfl
      rw [hret] at hr
      cases hr
    exact ⟨by simp only [Function.update_of_ne hb]; exact ho, hr⟩

/-- A thread that releases a list does not break. -/
theorem ReleaseOk.holds_of_breaks (h : s.ReleaseOk) (hb : s.Breaks t) (r : Role)
    (m : Option Addr) : (s.pc t).holds r m = m := by
  cases hb with
  | freed a hp ho =>
    cases ht : s.pc t with
    | removing k b | retiring k b =>
      rw [ht] at hp
      cases hp
      exact absurd ho (h.held t a (by rw [ht]; rfl)).1
    | storing k b | dropping k b =>
      rw [ht] at hp
      cases hp
    | _ => rfl
  | insert a ht | take a ht | putBack a c ht =>
    rw [ht]
    rfl

/-- Every step of an orderly run keeps the law of references. -/
theorem RefsOk.step (h : ∀ b, s.RefsOk b) (hi : s.Inv) (htab : s.TablesOk) (hrel : s.ReleaseOk)
    (act : RegAct) (hok : OrderlyLookup s act) (hs : s.step act = some s') (b : Addr) :
    s'.RefsOk b := by
  have hmove {t : Pid} {s' : Registry} (p : RegPc) (hpc : s'.pc = Function.update s.pc t p)
      (htable : s'.table = s.table) (hcomplist : s'.complist = s.complist)
      (hp : ∀ r m, p.holds r m = (s.pc t).holds r m) (ho : s'.obj = s.obj)
      (hr : s'.ready = s.ready) (hrel : s'.releases = s.releases) (hd : s'.deletes = s.deletes) :
      s'.RefsOk b :=
    RefsOk.same h b ho hr hrel hd (references_moved p hpc htable hcomplist hp b)
  cases step_steps hs with
  | deleteNone | dequeueNone | endNone => exact h b
  | enterNone t r i ht hnone => exact absurd hnone hok.1
  | runBreaks t hb | copyBreaks t hb =>
    exact hmove .oops rfl rfl rfl (fun r m => (hrel.holds_of_breaks hb r m).symm) rfl rfl rfl rfl
  | endUnassigned t ht | delete t i a ht | dequeue t i a ht | endWorker t a ht | insert t a h' ht
  | started t a ht | take t a c h' ht | report t a c ht | remove t k a o ht | putBack t a c h' ht
  | interrupt t a ht | noEvent t a ht | resume t ht =>
    exact hmove _ rfl rfl rfl (fun _ _ => by rw [ht]; rfl) rfl rfl rfl rfl
  | enter t r i a ht hnew hidr =>
    exact RefsOk.same h b rfl rfl rfl rfl (references_enter ht hnew b)
  | publish t i ht =>
    have hfresh := (hi.list s.nextAddr).fresh (Int.le_refl _)
    refine RefsOk.unready h _ (by rfl) (by rfl) (by rfl) (fun _ _ => by rw [ht]; rfl) hfresh.1
      hfresh.2.1 (by rfl) (fun c hc => ?_) (by rfl) (by rfl) b
    exact Function.update_of_ne hc _ _
  | initStep t a i op ops o ht ho =>
    rw [initStep_eq i o op ho]
    refine RefsOk.unready h _ (by rfl) (by rfl) (by rfl) (fun _ _ => by rw [ht]; rfl)
      (hi.alone ht).1 (hi.alone ht).2.1 (by rfl) (fun c hc => ?_) (by rfl) (by rfl) b
    exact Function.update_of_ne hc _ _
  | discard t a i o ht ho =>
    refine RefsOk.unready h _ (by rfl) (by rfl) (by rfl) (fun _ _ => by rw [ht]; rfl)
      (hi.alone ht).1 (hi.alone ht).2.1 (by rfl) (fun c hc => ?_) (by rfl) (by rfl) b
    exact Function.update_of_ne hc _ _
  | created t a i ht => exact RefsOk.created h hi ht b
  | get t r a o ht ho =>
    have hk := hi.knows t
    rw [ht] at hk
    exact RefsOk.get h htab ht o ho hk.2 hk.1 b
  | storeWorker t a ht =>
    exact RefsOk.same h b rfl rfl rfl rfl
      (references_stored ht (.inserting a) (by rfl) (by rfl) (by rfl) (fun _ _ => rfl) b)
  | storeScheduler t a ht =>
    exact RefsOk.same h b rfl rfl rfl rfl
      (references_stored ht (.startup a) (by rfl) (by rfl) (by rfl) (fun _ _ => rfl) b)
  | putDeleted t a o ht ho =>
    have hk := hi.knows t
    rw [ht] at hk
    refine RefsOk.putUmsComplist h hi o ho hk.1 none (s.deletes a + 1) s.references (fun c => ?_)
      (by omega) (fun _ _ => rfl) (Nat.le_succ _) b
    obtain ⟨p, n, R, U, heq, hcase⟩ := putUmsComplist_eq (t := t) (a := a)
      (s := { s with deletes := Function.update s.deletes a (s.deletes a + 1) }) o none
    rw [heq]
    refine references_moved p (by rfl) (by rfl) (by rfl) (fun r m => ?_) c
    rcases hcase with ⟨-, rfl, -⟩ | ⟨-, rfl, -⟩
    · rw [ht]
      rfl
    · rw [ht]
      rfl
  | putEnded t r a o ht ho =>
    have hk := hi.knows t
    rw [ht] at hk
    have href := references_putEnded htab ht o
    have hput := RefsOk.putUmsComplist (t := t) h hi o ho ((hi.list a).member r t hk) (some r)
      (s.deletes a) (s.putUmsComplist t a o (some r)).references
      (by rw [Function.update_eq_self]; exact fun _ => rfl)
      (by rw [href a, if_pos rfl]; omega) (fun c hc => by rw [href c, if_neg hc]; rfl)
      (Nat.le_refl _) b
    rwa [Function.update_eq_self] at hput
  | retire t k a ht =>
    obtain ⟨R, U, heq⟩ := putReturns_eq (s := s) (t := t) (a := a) k
    rw [heq]
    refine hmove (t := t) (afterPut a k) rfl rfl rfl (fun r m => ?_) rfl rfl rfl rfl
    rw [ht, holds_afterPut]
    rfl
  | drop t r a ht =>
    obtain ⟨hmem, -⟩ := htab.placed r t (some a) (by simp [ht, RegPc.context])
    exact RefsOk.same h b rfl rfl rfl rfl
      (references_drop (htab.nodup r) hmem ht (by rfl) (by rfl) (by rfl) b)
  | free a hret =>
    have hgone := (hi.list a).retired hret
    by_cases hb : b = a
    · subst hb
      exact ⟨fun _ _ _ h0 => absurd h0 hgone, (h b).spent⟩
    · exact (h b).frame ⟨by simp [hb], rfl, rfl, rfl⟩ rfl

/-- What an orderly run keeps. A step only faults if some list has been deleted twice. -/
structure Sound (s : Registry) : Prop where
  inv : s.Inv
  tables : s.TablesOk
  refs : ∀ a, s.RefsOk a
  release : s.ReleaseOk
  heads : ∃ r, s.HeadsOk r
  fault : s.fault = true → ∃ a, 2 ≤ s.deletes a

theorem sound_init : init.Sound where
  inv := registry_inv_init
  tables := by constructor <;> simp [init, RegPc.context]
  refs _ := by constructor <;> simp [init]
  release := by constructor <;> simp [init, RegPc.releasing]
  heads := ⟨_, headsOk_init⟩
  fault h := by cases h

/-- A list that is not released is allocated, and a context that holds a reference to a released
list has lost it to a second delete. -/
theorem Sound.deleted_of_freed (h : s.Sound) (hp : (s.pc t).worksOn = some a)
    (ho : s.obj a = none) : 2 ≤ s.deletes a := by
  have hlive (hr : s.ready a = true) (h0 : s.releases a = 0) : False := by
    obtain ⟨o, hsome, -⟩ := (h.inv.list a).live hr h0
    cases hsome.symm.trans ho
  have hk := h.inv.knows t
  cases ht : s.pc t with
  | user | storing | startup | suspended | dropping | oops =>
    rw [ht] at hp
    cases hp
  | creating =>
    rw [ht] at hp hk
    cases hp
    obtain ⟨-, -, -, -, -, o, hsome, -⟩ := hk
    cases hsome.symm.trans ho
  | attaching | inserting | deleting | dequeuing | reporting =>
    rw [ht] at hp hk
    cases hp
    exact (hlive hk.1 hk.2).elim
  | ending r =>
    rw [ht] at hp
    cases hp
    obtain ⟨hmem, hm⟩ := h.tables.placed r t (some a) (by simp [ht, RegPc.context])
    have hpos := references_pos hmem (s := s) (a := a) (by rw [held, ht, hm]; rfl)
    have hspent := (h.refs a).spent (fun h0 => hlive ((h.inv.list a).member r t hm) h0)
    omega
  | removing | retiring =>
    rw [ht] at hp
    cases hp
    exact absurd ho (h.release.held t a (by rw [ht]; rfl)).1

/-- Nobody is about to go through a freed object or a broken list, unless after a second delete. -/
theorem Sound.deleted_of_breaks (h : s.Sound) (hb : s.Breaks t) : ∃ a, 2 ≤ s.deletes a := by
  obtain ⟨r, hh⟩ := h.heads
  have hk := h.inv.knows t
  cases hb with
  | freed a hp ho => exact ⟨a, h.deleted_of_freed hp ho⟩
  | insert a ht hadd =>
    rw [ht] at hk
    obtain ⟨h', hsome⟩ := hh.add_succeeds hk.1
    cases hadd.symm.trans hsome
  | take a ht hne htake =>
    rw [ht] at hk
    obtain ⟨c, h', hsome⟩ := hh.dequeue_succeeds hk.1 hne
    exact absurd hsome (htake c h')
  | putBack a c ht hadd =>
    rw [ht] at hk
    obtain ⟨h', hsome⟩ := hh.putBack_succeeds hk.1 (hh.reporting t a c ht)
    cases hadd.symm.trans hsome

theorem Sound.step_fault (h : s.Sound) (act : RegAct) (hok : OrderlyLookup s act)
    (hs : s.step act = some s') (hf : s'.fault = true) :
    s.fault = true ∨ ∃ a, 2 ≤ s.deletes a := by
  cases step_steps hs with
  | enterNone t k i ht hnone => exact absurd hnone hok.1
  | endUnassigned t ht hw hc =>
    have hold := h.tables.assigned .worker t hw hc
    simp [ht, RegPc.context] at hold
  | runBreaks t hb | copyBreaks t hb => exact Or.inr (h.deleted_of_breaks hb)
  | initStep t a i op ops o ht ho =>
    rw [initStep_eq i o op ho] at hf
    exact Or.inl hf
  | putDeleted t a o ht ho | putEnded t r a o ht ho =>
    rw [putUmsComplist_fault] at hf
    exact Or.inl hf
  | retire t k a ht => exact Or.inl ((putReturns_fault k).symm.trans hf)
  | _ => exact Or.inl hf

/-- A delete does not break: the list it has looked up is there. -/
theorem Inv.undeleted_of_breaks (hi : s.Inv) (hb : s.Breaks t) : s.UndeletedAt (s.pc t) := by
  have hk := hi.knows t
  cases ht : s.pc t with
  | deleting a =>
    rw [ht] at hk
    obtain ⟨o, ho, -⟩ := (hi.list a).live hk.1 hk.2
    cases hb with
    | freed b hp hnone =>
      rw [ht] at hp
      cases hp
      cases hnone.symm.trans ho
    | insert b hp | take b hp | putBack b c hp => cases ht.symm.trans hp
  | _ => trivial

/-- What a step does to the deletes and the releases of lists: only a delete adds to the former, and
with the last reference also to the latter. -/
theorem Inv.step_deletes (hi : s.Inv) (act : RegAct) (hs : s.step act = some s') :
    (∀ a, s.releases a ≤ s'.releases a) ∧
    ((s'.deletes = s.deletes ∧ DeletedOnce s act) ∨
      ∃ t a o, act = .run t ∧ s.pc t = .deleting a ∧ s.obj a = some o ∧
        s'.deletes = Function.update s.deletes a (s.deletes a + 1) ∧
        (o.refcount = 1 → s'.releases a = s.releases a + 1)) := by
  have hput {d : Addr → ℕ} {t : Pid} {a : Addr} {o : UmsComplist} {k : Option Role} (b : Addr) :
      s.releases b ≤ ({ s with deletes := d }.putUmsComplist t a o k).releases b := by
    obtain ⟨p, n, R, U, heq, hcase⟩ := putUmsComplist_eq (s := { s with deletes := d }) (t := t)
      (a := a) o k
    rw [heq]
    by_cases hb : b = a
    · subst hb
      rcases hcase with ⟨-, -, rfl⟩ | ⟨-, -, rfl⟩
      · simp
      · simp
    · simp [hb]
  cases step_steps hs with
  | runBreaks t hb =>
    exact ⟨fun _ => Nat.le_refl _, Or.inl ⟨rfl, hi.undeleted_of_breaks hb⟩⟩
  | initStep t a i op ops o ht ho =>
    rw [initStep_eq i o op ho]
    exact ⟨fun _ => Nat.le_refl _, Or.inl ⟨rfl, by simp [DeletedOnce, ht, UndeletedAt]⟩⟩
  | putDeleted t a o ht ho =>
    refine ⟨hput, Or.inr ⟨t, a, o, rfl, ht, ho, ?_⟩⟩
    refine ⟨putUmsComplist_deletes o none, fun h1 => ?_⟩
    obtain ⟨p, n, R, U, heq, hcase⟩ := putUmsComplist_eq (t := t) (a := a)
      (s := { s with deletes := Function.update s.deletes a (s.deletes a + 1) }) o none
    rw [heq]
    rcases hcase with ⟨-, -, rfl⟩ | ⟨hne, -, -⟩
    · simp
    · omega
  | putEnded t r a o ht ho =>
    exact ⟨hput (d := s.deletes), Or.inl ⟨putUmsComplist_deletes o (some r),
      by simp [DeletedOnce, ht, UndeletedAt]⟩⟩
  | retire t k a ht =>
    obtain ⟨R, U, heq⟩ := putReturns_eq (s := s) (t := t) (a := a) k
    rw [heq]
    exact ⟨fun _ => Nat.le_refl _, Or.inl ⟨rfl, by simp [DeletedOnce, ht, UndeletedAt]⟩⟩
  | created t a i ht | get t r a o ht | storeWorker t a ht | storeScheduler t a ht
  | insert t a h' ht | started t a ht | take t a c h' ht | report t a c ht | remove t k a o ht
  | drop t r a ht =>
    exact ⟨fun _ => Nat.le_refl _, Or.inl ⟨rfl, by simp [DeletedOnce, ht, UndeletedAt]⟩⟩
  | _ => exact ⟨fun _ => Nat.le_refl _, Or.inl ⟨rfl, trivial⟩⟩

theorem Inv.step_deletes_le (hi : s.Inv) (act : RegAct) (hs : s.step act = some s') (a : Addr) :
    s.deletes a ≤ s'.deletes a := by
  rcases (hi.step_deletes act hs).2 with ⟨hd, -⟩ | ⟨t, b, o, -, -, -, hd, -⟩
  · exact Nat.le_of_eq (congrFun hd a).symm
  · rw [hd]
    by_cases hab : a = b
    · simp [hab]
    · simp [hab]

/-- The lists are deleted once as long as no delete comes to a deleted list. -/
theorem Inv.deletes_iff (hi : s.Inv) (act : RegAct) (hs : s.step act = some s') :
    (∀ a, s'.deletes a ≤ 1) ↔ (∀ a, s.deletes a ≤ 1) ∧ DeletedOnce s act := by
  rcases (hi.step_deletes act hs).2 with ⟨hd, hok⟩ | ⟨t, a, o, rfl, ht, -, hd, -⟩
  · rw [hd]
    exact (and_iff_left hok).symm
  · have hat : DeletedOnce s (.run t) ↔ s.deletes a = 0 := by
      simp [DeletedOnce, ht, UndeletedAt]
    rw [hat, hd]
    constructor
    · intro h
      have ha := h a
      rw [Function.update_self] at ha
      refine ⟨fun b => ?_, by omega⟩
      by_cases hb : b = a
      · subst hb
        omega
      · have hle := h b
        rwa [Function.update_of_ne hb] at hle
    · rintro ⟨h, h0⟩ b
      by_cases hb : b = a
      · subst hb
        rw [Function.update_self]
        omega
      · rw [Function.update_of_ne hb]
        exact h b

/-- A list that is deleted while nobody else holds a reference is released. -/
theorem Inv.deletes_le_releases (hi : s.Inv) (act : RegAct) (hd : DeletedUnused s act)
    (hs : s.step act = some s') (h : ∀ a, s.deletes a ≤ s.releases a) (a : Addr) :
    s'.deletes a ≤ s'.releases a := by
  obtain ⟨hrel, hcase⟩ := hi.step_deletes act hs
  have hold := h a
  have hgrow := hrel a
  rcases hcase with ⟨hsame, -⟩ | ⟨t, b, o, rfl, ht, ho, hnew, hlast⟩
  · rw [hsame]
    omega
  · rw [hnew]
    by_cases hab : a = b
    · subst hab
      have hone : o.refcount = 1 := by
        simpa [DeletedUnused, ht, UnusedAt, ho] using hd
      rw [Function.update_self, hlast hone]
      omega
    · rw [Function.update_of_ne hab]
      omega

theorem Sound.step (h : s.Sound) (act : RegAct) (hok : Orderly s act) (hs : s.step act = some s') :
    s'.Sound := by
  obtain ⟨r, hh⟩ := h.heads
  refine ⟨h.inv.step act hok.1 hok.2 hs, h.tables.step act hok.1 hs,
    RefsOk.step h.refs h.inv h.tables h.release act hok.1 hs, h.release.step h.inv act hs,
    hh.step h.inv act hs, fun hf => ?_⟩
  have hold : ∃ a, 2 ≤ s.deletes a := by
    rcases h.step_fault act hok.1 hs hf with hf | htwo
    · exact h.fault hf
    · exact htwo
  obtain ⟨a, ha⟩ := hold
  exact ⟨a, Nat.le_trans ha (h.inv.step_deletes_le act hs a)⟩

/-- The references to the list at one address, in every state and in those in which no thread is
between a reference and its pointer. -/
structure RefsExact (s : Registry) (a : Addr) : Prop where
  counted : ∀ o, s.obj a = some o → s.ready a = true → s.releases a = 0 →
    o.refcount = 1 - s.deletes a + s.holders .worker a + s.holders .scheduler a
  refcount : (∀ t, (s.pc t).between ≠ some a) →
    ∀ o, s.obj a = some o → s.ready a = true → s.releases a = 0 →
      (o.refcount = (if s.deletes a = 0 then 1 else 0) + s.attached .worker a +
        s.attached .scheduler a ↔ s.deletes a ≤ 1)
  member : s.deletes a ≤ 1 → ∀ r t, t ∈ s.table r → s.complist (r, t) = some a →
    s.releases a = 0 ∨ s.held r t = none
  allocated : s.ready a = true → s.releases a = 0 → s.obj a ≠ none

theorem Sound.refsExact (h : s.Sound) (a : Addr) : s.RefsExact a := by
  have hcounted (o : UmsComplist) (ho : s.obj a = some o) (hr : s.ready a = true)
      (h0 : s.releases a = 0) :
      o.refcount = 1 - s.deletes a + s.holders .worker a + s.holders .scheduler a := by
    have hold := (h.refs a).refcount o ho hr h0
    rw [references] at hold
    omega
  refine ⟨hcounted, fun hb o ho hr h0 => ?_, fun hd r t ht hm => ?_, fun hr h0 => ?_⟩
  · rw [← h.tables.holders_eq hb, ← h.tables.holders_eq hb]
    have hold := hcounted o ho hr h0
    split <;> omega
  · by_cases h0 : s.releases a = 0
    · exact Or.inl h0
    · refine Or.inr ?_
      have hspent := (h.refs a).spent h0
      rcases h.tables.held_cases hm with hheld | hnone
      · have hpos := references_pos ht hheld
        omega
      · exact hnone
  · obtain ⟨o, ho, -⟩ := (h.inv.list a).live hr h0
    rw [ho]
    exact Option.some_ne_none o

end Registry

/-- In an orderly run the count of a list is exact if and only if it has been deleted once at most,
and then no live context points to a released list, but inside its own destroy function, and no
step faults. Lists are deleted once if no delete comes to a deleted list, and so if they are
deleted when nobody uses them. -/
theorem references_exact (s : Registry)
    (hr : Transition.Reach Registry.step Orderly Registry.init s) :
    (∀ a, s.RefsExact a) ∧ ((∀ a, s.deletes a ≤ 1) → s.fault = false) ∧
    ((∀ a, s.deletes a ≤ 1) ↔ Transition.Reach Registry.step
      (fun s act => Orderly s act ∧ DeletedOnce s act) Registry.init s) ∧
    (Transition.Reach Registry.step (fun s act => Orderly s act ∧ DeletedUnused s act)
      Registry.init s → ∀ a, s.deletes a ≤ 1) := by
  have h : s.Sound := hr.invariant Registry.Sound Registry.sound_init
    (fun _ act _ h hok hs => h.step act hok hs)
  refine ⟨h.refsExact, fun hd => ?_, ?_, fun hunused a => ?_⟩
  · refine Bool.eq_false_iff.mpr fun hf => ?_
    obtain ⟨a, ha⟩ := h.fault hf
    have hle := hd a
    omega
  · exact hr.iff_restricted Registry.Inv (fun s => ∀ a, s.deletes a ≤ 1) DeletedOnce
      registry_inv_init (fun _ => Nat.zero_le 1) fun _ act _ hi hok hs =>
        ⟨hi.step act hok.1 hok.2 hs, hi.deletes_iff act hs⟩
  · have hboth := hunused.invariant (fun s => s.Inv ∧ ∀ a, s.deletes a ≤ s.releases a)
      ⟨registry_inv_init, fun _ => Nat.le_refl 0⟩ fun _ act _ hi hok hs =>
        ⟨hi.1.step act hok.1.1 hok.1.2 hs, hi.1.deletes_le_releases act hok.2 hs hi.2⟩
    exact Nat.le_trans (hboth.2 a) (h.inv.list a).releases_le

/-- Thread 3 gets no startup event and gives its reference back, and the list is deleted while
worker 2 and scheduler 1 use it. In another run worker 2 ends last and still points to the list
that it has released. -/
theorem references_exact_sample :
    (∃ s, Transition.Reach Registry.step Orderly Registry.init s ∧
      ((s.ready 0 = true ∧ s.deletes 0 = 1 ∧ s.releases 0 = 0) ∧ s.table .worker = [2] ∧
        s.table .scheduler = [1] ∧ s.obj 0 = some ⟨1, 2⟩) ∧ ∀ a, s.RefsExact a) ∧
    ∃ s, Transition.Reach Registry.step Orderly Registry.init s ∧
      ((s.deletes 0 = 1 ∧ s.releases 0 = 1) ∧ 2 ∈ s.table .worker ∧
        s.complist (.worker, 2) = some 0) ∧ s.held .worker 2 = none := by
  constructor
  · obtain ⟨s, hr, hs⟩ := Transition.Reach.exists_of_run Registry.step Orderly Registry.init
      (createList ++ enterWorker 2 ++
        [.enter 3 .scheduler 1, .run 3, .run 3, .noEvent 3, .run 3, .run 3] ++
        enterScheduler 1 ++ [.delete 1 1, .run 1])
      (fun s => (s.ready 0 = true ∧ s.deletes 0 = 1 ∧ s.releases 0 = 0) ∧ s.table .worker = [2] ∧
        s.table .scheduler = [1] ∧ s.obj 0 = some ⟨1, 2⟩) (by decide +kernel)
    exact ⟨s, hr, hs, (references_exact s hr).1⟩
  · obtain ⟨s, hr, hs⟩ := Transition.Reach.exists_of_run Registry.step Orderly Registry.init
      (createList ++ enterWorker 2 ++ [.delete 1 1, .run 1, .resume 2, .endWorker 2, .run 2])
      (fun s => (s.deletes 0 = 1 ∧ s.releases 0 = 1) ∧ 2 ∈ s.table .worker ∧
        s.complist (.worker, 2) = some 0) (by decide +kernel)
    have hexact := (references_exact s hr).1 0
    refine ⟨s, hr, hs, (hexact.member (by omega) .worker 2 hs.2.1 hs.2.2).resolve_left ?_⟩
    omega

/-- The id resolves as long as somebody holds a reference, so a second delete finds the list as
well; it takes the reference of a live worker, and the list is released under it. -/
theorem second_delete_succeeds :
    ∃ s, Transition.Reach Registry.step Orderly Registry.init s ∧
      s.deletes 0 = 2 ∧ (2 ∈ s.table .worker ∧ s.complist (.worker, 2) = some 0 ∧
        s.pc 2 = .suspended) ∧ s.releases 0 = 1 := by
  exact Transition.Reach.exists_of_run Registry.step Orderly Registry.init
    (createList ++ enterWorker 2 ++ [.delete 1 1, .run 1, .delete 1 1, .run 1])
    _ (by decide +kernel)

end LinuxUms
