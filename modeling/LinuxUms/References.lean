import LinuxUms.Lifetime
import Mathlib.Logic.Function.Basic

/-! What holds of the references to completion lists when every lookup finds a list that is
complete and alive, and no list dies between somebody's lookup and use. -/
namespace LinuxUms

open KernelList

/-- The creator of the list has returned and its count has not reached zero. -/
def Registry.Settled (s : Registry) (o : Option Addr) : Prop :=
  ∀ a ∈ o, s.ready a = true ∧ s.releases a = 0

instance (s : Registry) (o : Option Addr) : Decidable (s.Settled o) :=
  inferInstanceAs (Decidable (∀ a ∈ o, _))

/-- Lookups find settled lists, and those of an enter do find one. -/
def OrderlyLookup (s : Registry) : RegAct → Prop
  | .enter _ _ i => s.idr i ≠ none ∧ s.Settled (s.idr i)
  | .delete _ i | .dequeue _ i => s.Settled (s.idr i)
  | _ => True

instance (s : Registry) : DecidablePred (OrderlyLookup s)
  | .enter _ _ i => inferInstanceAs (Decidable (s.idr i ≠ none ∧ s.Settled (s.idr i)))
  | .delete _ i | .dequeue _ i => inferInstanceAs (Decidable (s.Settled (s.idr i)))
  | .create _ _ | .endWorker _ | .run _ | .copyFails _ | .interrupt _ | .noEvent _ | .resume _
  | .free _ => inferInstanceAs (Decidable True)

/-- If thread `t` is about to put the last reference to a list, no other thread is between its
lookup of the list and its last use of it. -/
def Registry.QuietAt (s : Registry) (t : Pid) : RegPc → Prop
  | .deleting a | .ending _ a =>
    (s.obj a).map UmsComplist.refcount = some 1 → ∀ x ∈ s.inUse a, x = t
  | _ => True

instance (s : Registry) (t : Pid) : DecidablePred (s.QuietAt t)
  | .deleting a | .ending _ a => inferInstanceAs (Decidable
      ((s.obj a).map UmsComplist.refcount = some 1 → ∀ x ∈ s.inUse a, x = t))
  | .user | .creating _ _ _ | .attaching _ _ | .storing _ _ | .inserting _ | .startup _
  | .suspended | .dequeuing _ | .reporting _ _ | .removing _ _ | .retiring _ _ | .dropping _ _
  | .oops => inferInstanceAs (Decidable True)

def QuietLastPut (s : Registry) : RegAct → Prop
  | .run t => s.QuietAt t (s.pc t)
  | _ => True

instance (s : Registry) : DecidablePred (QuietLastPut s)
  | .run t => inferInstanceAs (Decidable (s.QuietAt t (s.pc t)))
  | .create _ _ | .enter _ _ _ | .delete _ _ | .dequeue _ _ | .endWorker _ | .copyFails _
  | .interrupt _ | .noEvent _ | .resume _ | .free _ => inferInstanceAs (Decidable True)

/-- The lookups and the last puts of a run are in order. -/
def Orderly (s : Registry) (act : RegAct) : Prop := OrderlyLookup s act ∧ QuietLastPut s act

instance (s : Registry) : DecidablePred (Orderly s) :=
  fun act => inferInstanceAs (Decidable (OrderlyLookup s act ∧ QuietLastPut s act))

/-- The list about to be deleted has not been deleted before. -/
def Registry.UndeletedAt (s : Registry) : RegPc → Prop
  | .deleting a => s.deletes a = 0
  | _ => True

instance (s : Registry) : DecidablePred s.UndeletedAt
  | .deleting a => inferInstanceAs (Decidable (s.deletes a = 0))
  | .user | .creating _ _ _ | .attaching _ _ | .storing _ _ | .inserting _ | .startup _
  | .suspended | .dequeuing _ | .reporting _ _ | .ending _ _ | .removing _ _ | .retiring _ _
  | .dropping _ _ | .oops => inferInstanceAs (Decidable True)

def DeletedOnce (s : Registry) : RegAct → Prop
  | .run t => s.UndeletedAt (s.pc t)
  | _ => True

instance (s : Registry) : DecidablePred (DeletedOnce s)
  | .run t => inferInstanceAs (Decidable (s.UndeletedAt (s.pc t)))
  | .create _ _ | .enter _ _ _ | .delete _ _ | .dequeue _ _ | .endWorker _ | .copyFails _
  | .interrupt _ | .noEvent _ | .resume _ | .free _ => inferInstanceAs (Decidable True)

/-- Nobody but its creator holds a reference to the list about to be deleted. -/
def Registry.UnusedAt (s : Registry) : RegPc → Prop
  | .deleting a => (s.obj a).map UmsComplist.refcount = some 1
  | _ => True

def DeletedUnused (s : Registry) : RegAct → Prop
  | .run t => s.UnusedAt (s.pc t)
  | _ => True

/-- What a thread inside the module may rely on. -/
def Registry.Knows (s : Registry) (t : Pid) : RegPc → Prop
  | .creating a _ ops =>
    a < s.nextAddr ∧ s.ready a = false ∧ s.releases a = 0 ∧ s.deletes a = 0 ∧ ops.Nodup ∧
      ∃ o, s.obj a = some o ∧ o.refcount = if .krefInit ∈ ops then 0 else 1
  | .attaching _ a | .storing _ a | .inserting a | .deleting a | .dequeuing a | .reporting a _ =>
    s.ready a = true ∧ s.releases a = 0
  | .startup a => s.complist (.scheduler, t) = some a
  | .ending r a => s.complist (r, t) = some a
  | .removing _ a | .retiring _ a => s.releases a ≠ 0
  | .user | .suspended | .dropping _ _ | .oops => True

/-- What holds of the object at one address. -/
structure Registry.ListOk (s : Registry) (a : Addr) : Prop where
  live : s.ready a = true → s.releases a = 0 → ∃ o, s.obj a = some o ∧ 1 ≤ o.refcount
  spent : ∀ o, s.releases a ≠ 0 → s.obj a = some o → o.refcount ≤ 0
  releases_le : s.releases a ≤ 1
  fresh : s.nextAddr ≤ a → s.ready a = false ∧ s.releases a = 0 ∧ s.deletes a = 0
  member : ∀ r t, s.complist (r, t) = some a → s.ready a = true
  retired : s.retired a = true → s.releases a ≠ 0

structure Registry.Inv (s : Registry) : Prop where
  knows : ∀ t, s.Knows t (s.pc t)
  inUse : ∀ t a, t ∈ s.inUse a ↔ (s.pc t).uses = some a
  creator : ∀ t t' a i i' ops ops', s.pc t = .creating a i ops → s.pc t' = .creating a i' ops' →
    t = t'
  list : ∀ a, s.ListOk a

theorem registry_inv_init : Registry.init.Inv where
  knows _ := trivial
  inUse t a := by simp [Registry.init, RegPc.uses]
  creator t t' a i i' ops ops' h := by simp [Registry.init] at h
  list a := by constructor <;> simp [Registry.init]

namespace Registry

variable {s s' : Registry} {t u : Pid} {a : Addr}

theorem Knows.settled {p : RegPc} (h : s.Knows t p) (hp : p.uses = some a) :
    s.ready a = true ∧ s.releases a = 0 := by
  cases p <;> simp_all [RegPc.uses, Knows]

theorem Knows.of_settled {p : RegPc} (hp : p.uses = some a)
    (h : s.ready a = true ∧ s.releases a = 0) : s.Knows t p := by
  cases p <;> simp_all [RegPc.uses, Knows]

/-- What another thread relies on survives a step that leaves alone the list it has looked up
or is creating. -/
theorem Knows.frame {p : RegPc} (h : s.Knows u p) (hn : s.nextAddr ≤ s'.nextAddr)
    (hm : ∀ r, s'.complist (r, u) = s.complist (r, u))
    (hr : ∀ b, s.releases b ≠ 0 → s'.releases b ≠ 0)
    (hu : ∀ b, p.uses = some b → s'.ready b = s.ready b ∧ s'.releases b = s.releases b)
    (hc : ∀ b i ops, p = .creating b i ops → s'.obj b = s.obj b ∧ s'.ready b = s.ready b ∧
      s'.releases b = s.releases b ∧ s'.deletes b = s.deletes b) : s'.Knows u p := by
  cases p with
  | user => trivial
  | suspended => trivial
  | dropping r b => trivial
  | oops => trivial
  | creating b i ops =>
    obtain ⟨hlt, h⟩ := h
    obtain ⟨h₁, h₂, h₃, h₄⟩ := hc b i ops rfl
    refine ⟨Int.lt_of_lt_of_le hlt hn, ?_⟩
    rw [h₁, h₂, h₃, h₄]
    exact h
  | startup b => exact (hm .scheduler).trans h
  | ending r b => exact (hm r).trans h
  | removing k b => exact hr b h
  | retiring k b => exact hr b h
  | storing r b => exact Knows.of_settled rfl (by rw [(hu b rfl).1, (hu b rfl).2]; exact h)
  | attaching r b => exact Knows.of_settled rfl (by rw [(hu b rfl).1, (hu b rfl).2]; exact h)
  | inserting b => exact Knows.of_settled rfl (by rw [(hu b rfl).1, (hu b rfl).2]; exact h)
  | deleting b => exact Knows.of_settled rfl (by rw [(hu b rfl).1, (hu b rfl).2]; exact h)
  | dequeuing b => exact Knows.of_settled rfl (by rw [(hu b rfl).1, (hu b rfl).2]; exact h)
  | reporting b c => exact Knows.of_settled rfl (by rw [(hu b rfl).1, (hu b rfl).2]; exact h)

/-- The facts about one list only depend on its own entries. -/
theorem ListOk.frame (h : s.ListOk a) (hn : s.nextAddr ≤ s'.nextAddr)
    (hm : ∀ r u, s'.complist (r, u) = some a → s.complist (r, u) = some a)
    (ho : s'.obj a = s.obj a ∧ s'.ready a = s.ready a ∧ s'.releases a = s.releases a ∧
      s'.deletes a = s.deletes a ∧ s'.retired a = s.retired a) : s'.ListOk a := by
  obtain ⟨h₁, h₂, h₃, h₄, h₅⟩ := ho
  constructor
  · rw [h₁, h₂, h₃]
    exact h.live
  · rw [h₁, h₃]
    exact h.spent
  · rw [h₃]
    exact h.releases_le
  · rw [h₂, h₃, h₄]
    exact fun ha => h.fresh (Int.le_trans hn ha)
  · rw [h₂]
    exact fun r u hu => h.member r u (hm r u hu)
  · rw [h₃, h₅]
    exact h.retired

/-- Thread `t` has made a step that concerns the list at `a` and no other. -/
structure Touches (s s' : Registry) (t : Pid) (a : Addr) : Prop where
  pc : ∀ u, u ≠ t → s'.pc u = s.pc u
  nextAddr : s.nextAddr ≤ s'.nextAddr
  off : ∀ b, b ≠ a → s'.obj b = s.obj b ∧ s'.ready b = s.ready b ∧ s'.releases b = s.releases b ∧
    s'.deletes b = s.deletes b ∧ s'.retired b = s.retired b
  complist : ∀ r u, u ≠ t → s'.complist (r, u) = s.complist (r, u)
  member : ∀ r u b, b ≠ a → s'.complist (r, u) = some b → s.complist (r, u) = some b
  spent : s.releases a ≠ 0 → s'.releases a ≠ 0
  -- nobody else is creating the list, and those who use it notice nothing
  creator : ∀ u i ops, u ≠ t → s.pc u ≠ .creating a i ops
  inUse : ∀ u, u ≠ t → u ∈ s.inUse a → s'.ready a = s.ready a ∧ s'.releases a = s.releases a

theorem Touches.others (ht : Touches s s' t a) (hi : s.Inv) (hu : u ≠ t) :
    s'.Knows u (s.pc u) := by
  apply (hi.knows u).frame ht.nextAddr (fun r => ht.complist r u hu)
  · intro b hb
    by_cases he : b = a
    · subst he
      exact ht.spent hb
    · rw [(ht.off b he).2.2.1]
      exact hb
  · intro b hb
    by_cases he : b = a
    · subst he
      exact ht.inUse u hu ((hi.inUse u b).mpr hb)
    · exact ⟨(ht.off b he).2.1, (ht.off b he).2.2.1⟩
  · intro b i ops hp
    have he : b ≠ a := by
      rintro rfl
      exact ht.creator u i ops hu hp
    obtain ⟨h₁, h₂, h₃, h₄, -⟩ := ht.off b he
    exact ⟨h₁, h₂, h₃, h₄⟩

/-- Such a step keeps the invariant if it does so for the list and for the thread. -/
theorem Inv.act (hi : s.Inv) (ht : Touches s s' t a) (hlist : s'.ListOk a)
    (hknows : s'.Knows t (s'.pc t))
    (hcreator : ∀ b i ops, s'.pc t = .creating b i ops →
      s.nextAddr ≤ b ∨ ∃ i ops, s.pc t = .creating b i ops)
    (huse : ∀ x b, x ∈ s'.inUse b ↔ if x = t then (s'.pc t).uses = some b else x ∈ s.inUse b) :
    s'.Inv where
  knows u := by
    by_cases hu : u = t
    · rw [hu]
      exact hknows
    · rw [ht.pc u hu]
      exact ht.others hi hu
  inUse u b := by
    rw [huse u b]
    by_cases hu : u = t
    · rw [if_pos hu, hu]
    · rw [if_neg hu, ht.pc u hu]
      exact hi.inUse u b
  creator u v b i i' ops ops' hu hv := by
    -- a list that `t` now creates is new, or was already its own
    have hother (w : Pid) (j j' : ListId) (os os' : List InitOp) (hw : w ≠ t)
        (h₁ : s'.pc w = .creating b j os) (h₂ : s'.pc t = .creating b j' os') : False := by
      rw [ht.pc w hw] at h₁
      rcases hcreator b j' os' h₂ with hn | ⟨k, ks, hk⟩
      · have hk := hi.knows w
        rw [h₁] at hk
        exact absurd hk.1 (Int.not_lt.mpr hn)
      · exact hw (hi.creator w t b j k os ks h₁ hk)
    by_cases hut : u = t
    · by_cases hvt : v = t
      · rw [hut, hvt]
      · subst hut
        exact (hother v i' i ops' ops hvt hv hu).elim
    · by_cases hvt : v = t
      · subst hvt
        exact (hother u i i' ops ops' hut hu hv).elim
      · rw [ht.pc u hut] at hu
        rw [ht.pc v hvt] at hv
        exact hi.creator u v b i i' ops ops' hu hv
  list b := by
    by_cases hb : b = a
    · rw [hb]
      exact hlist
    · exact (hi.list b).frame ht.nextAddr (fun r u => ht.member r u b hb) (ht.off b hb)

/-- The list nodes, the id table, the tables of contexts and the RCU sections do not enter. -/
theorem Inv.mask (hi : s.Inv) (h : Heap Node) (d : ListId → Option Addr) (n : Pid)
    (T : Role → List Pid) (r : Addr → List Pid) (f : Bool) :
    Inv { s with heap := h, idr := d, nextContext := n, table := T, readers := r,
                 fault := f } where
  knows u := (hi.knows u).frame (Int.le_refl _) (fun _ => rfl) (fun _ hb => hb)
    (fun _ _ => ⟨rfl, rfl⟩) (fun _ _ _ _ => ⟨rfl, rfl, rfl, rfl⟩)
  inUse := hi.inUse
  creator := hi.creator
  list b := (hi.list b).frame (Int.le_refl _) (fun _ _ hu => hu) ⟨rfl, rfl, rfl, rfl, rfl⟩

/-- The pointers of a thread's contexts may change while it does not need them, to lists that are
ready. -/
theorem Inv.assign (hi : s.Inv) (r : Role) (m : Option Addr) (hm : ∀ a ∈ m, s.ready a = true)
    (hk : ∀ a, s.pc t ≠ .startup a ∧ ∀ k, s.pc t ≠ .ending k a) :
    ({ s with complist := Function.update s.complist (r, t) m } : Registry).Inv where
  knows u := by
    by_cases hu : u = t
    · subst hu
      have h := hi.knows u
      cases hp : s.pc u with
      | startup a => exact absurd hp (hk a).1
      | ending k a => exact absurd hp ((hk a).2 k)
      | _ =>
        rw [hp] at h
        exact h
    · refine (hi.knows u).frame (Int.le_refl _) (fun k => ?_) (fun _ hb => hb)
        (fun _ _ => ⟨rfl, rfl⟩) (fun _ _ _ _ => ⟨rfl, rfl, rfl, rfl⟩)
      exact Function.update_of_ne (fun he => hu (Prod.mk.inj he).2) _ _
  inUse := hi.inUse
  creator := hi.creator
  list b := by
    have hl := hi.list b
    refine ⟨hl.live, hl.spent, hl.releases_le, hl.fresh, fun k u hu => ?_, hl.retired⟩
    simp only [Function.update_apply] at hu
    split at hu
    · exact hm b hu
    · exact hl.member k u hu

/-- A thread moves on without touching any list. -/
theorem Inv.move (hi : s.Inv) (t : Pid) (p : RegPc) (U : Addr → List Pid) (hk : s.Knows t p)
    (hc : ∀ b i ops, p = .creating b i ops → ∃ i ops, s.pc t = .creating b i ops)
    (hU : ∀ x b, x ∈ U b ↔ if x = t then p.uses = some b else x ∈ s.inUse b) :
    Inv { s.setPc t p with inUse := U } where
  knows u := by
    have hsame (q : RegPc) (hq : s.Knows u q) :
        ({ s.setPc t p with inUse := U } : Registry).Knows u q :=
      hq.frame (Int.le_refl _) (fun _ => rfl) (fun _ hb => hb)
        (fun _ _ => ⟨rfl, rfl⟩) (fun _ _ _ _ => ⟨rfl, rfl, rfl, rfl⟩)
    apply hsame
    by_cases hu : u = t
    · subst hu
      simpa only [setPc, Function.update_self] using hk
    · simpa only [setPc, Function.update_of_ne hu] using hi.knows u
  inUse u b := by
    rw [hU u b]
    by_cases hu : u = t
    · simp only [hu, if_true, setPc, Function.update_self]
    · simp only [hu, if_false, setPc, Function.update_of_ne hu]
      exact hi.inUse u b
  creator u v b i i' ops ops' hu hv := by
    have hback (w : Pid) (j : ListId) (os : List InitOp)
        (hw : (s.setPc t p).pc w = .creating b j os) : ∃ j os, s.pc w = .creating b j os := by
      by_cases hwt : w = t
      · subst hwt
        simp only [setPc, Function.update_self] at hw
        exact hc b j os hw
      · simp only [setPc, Function.update_of_ne hwt] at hw
        exact ⟨j, os, hw⟩
    obtain ⟨j, os, hu⟩ := hback u i ops hu
    obtain ⟨j', os', hv⟩ := hback v i' ops' hv
    exact hi.creator u v b j j' os os' hu hv
  list b := (hi.list b).frame (Int.le_refl _) (fun _ _ hu => hu) ⟨rfl, rfl, rfl, rfl, rfl⟩

theorem mem_done (hi : s.Inv) (hu : ∀ b, (s.pc t).uses = some b → b = a) (x : Pid) (b : Addr) :
    x ∈ (s.done t a).inUse b ↔ if x = t then False else x ∈ s.inUse b := by
  have ht : t ∈ s.inUse b → b = a := fun hm => hu b ((hi.inUse t b).mp hm)
  by_cases hb : b = a
  · subst hb
    simp only [done, Function.update_self, List.mem_filter, decide_eq_true_eq, and_comm]
    by_cases hx : x = t <;> simp [hx]
  · simp only [done, Function.update_of_ne hb]
    by_cases hx : x = t
    · subst hx
      simp only [if_true, iff_false]
      exact fun hm => hb (ht hm)
    · rw [if_neg hx]

theorem mem_hold (hi : s.Inv) (hu : s.pc t = .user) (p q : RegPc) (hp : p.uses = some a)
    (x : Pid) (b : Addr) :
    x ∈ (s.hold t a q).inUse b ↔ if x = t then p.uses = some b else x ∈ s.inUse b := by
  have ht : t ∉ s.inUse b := by
    rw [hi.inUse t b, hu]
    simp [RegPc.uses]
  rw [hp]
  by_cases hb : b = a
  · subst hb
    simp only [hold, Function.update_self, List.mem_cons]
    by_cases hx : x = t <;> simp [hx]
  · simp only [hold, Function.update_of_ne hb]
    by_cases hx : x = t
    · subst hx
      simp only [if_true, ht, false_iff, Option.some.injEq]
      exact fun he => hb he.symm
    · rw [if_neg hx]

theorem Inv.hold (hi : s.Inv) (hu : s.pc t = .user) (p : RegPc) (hp : p.uses = some a)
    (ha : s.ready a = true ∧ s.releases a = 0) : (s.hold t a p).Inv := by
  refine (hi.move t p (s.hold t a p).inUse (Knows.of_settled hp ha) ?_ ?_).mask
    s.heap s.idr s.nextContext s.table (s.hold t a p).readers s.fault
  · rintro b i ops rfl
    simp [RegPc.uses] at hp
  · exact mem_hold hi hu p p hp

/-- A thread that is done with what it has looked up moves on. -/
theorem Inv.done (hi : s.Inv) (hu : ∀ b, (s.pc t).uses = some b → b = a) (p : RegPc)
    (hp : p.uses = none) (hk : s.Knows t p) (hc : ∀ b i ops, p ≠ .creating b i ops) :
    ((s.done t a).setPc t p).Inv := by
  apply hi.move t p (s.done t a).inUse hk
  · exact fun b i ops he => absurd he (hc b i ops)
  · intro x b
    rw [mem_done hi hu, hp]
    simp

theorem Inv.leave (hi : s.Inv) (hu : ∀ b, (s.pc t).uses = some b → b = a) :
    (s.leave t a).Inv :=
  (hi.done hu .user rfl trivial (fun _ _ _ h => by cases h)).mask
    s.heap s.idr s.nextContext s.table (s.leave t a).readers s.fault

/-- A move between two places that use no list, or the same one. -/
theorem Inv.setPc (hi : s.Inv) (p : RegPc) (hp : p.uses = (s.pc t).uses) (hk : s.Knows t p)
    (hc : ∀ b i ops, p = .creating b i ops → ∃ i ops, s.pc t = .creating b i ops) :
    (s.setPc t p).Inv := by
  apply hi.move t p s.inUse hk hc
  intro x b
  by_cases hx : x = t
  · rw [if_pos hx, hx, hp]
    exact hi.inUse t b
  · rw [if_neg hx]

/-- While a list is being created, no other thread works on it. -/
theorem Inv.alone (hi : s.Inv) {i : ListId} {ops : List InitOp} (ht : s.pc t = .creating a i ops) :
    s.ready a = false ∧ s.releases a = 0 ∧ s.deletes a = 0 ∧ s.inUse a = [] ∧
      ∀ u j os, s.pc u = .creating a j os → u = t := by
  have hk := hi.knows t
  rw [ht] at hk
  obtain ⟨-, hr, h0, hd, -⟩ := hk
  refine ⟨hr, h0, hd, ?_, fun u j os hu => hi.creator u t a j i os ops hu ht⟩
  apply List.eq_nil_iff_forall_not_mem.mpr
  intro u hu
  have hs := (hi.knows u).settled ((hi.inUse u a).mp hu)
  rw [hr] at hs
  exact Bool.false_ne_true hs.1

/-- A thread that uses no list before and after leaves the records of use as they are. -/
theorem Inv.unused (hi : s.Inv) (hu : (s.pc t).uses = none) (x : Pid) (b : Addr) :
    x ∈ s.inUse b ↔ if x = t then none = some b else x ∈ s.inUse b := by
  by_cases hx : x = t
  · subst hx
    rw [if_pos rfl, hi.inUse x b, hu]
  · rw [if_neg hx]

theorem Inv.publish (hi : s.Inv) (i : ListId) (hu : s.pc t = .user) : (s.publish t i).Inv := by
  obtain ⟨hr, h0, hd⟩ := (hi.list s.nextAddr).fresh (Int.le_refl _)
  have hpc : (s.publish t i).pc t = .creating s.nextAddr i umsComplistInit := by
    simp [Registry.publish, Registry.setPc]
  apply hi.act (t := t) (a := s.nextAddr)
  · constructor
    · exact fun u hu => by simp [Registry.publish, Registry.setPc, hu]
    · exact Int.le_of_lt (Int.lt_succ _)
    · exact fun b hb => ⟨by simp [Registry.publish, hb], rfl, rfl, rfl, rfl⟩
    · exact fun _ _ _ => rfl
    · exact fun _ _ _ _ h => h
    · exact id
    · intro u j ops _ hc
      have hk := hi.knows u
      rw [hc] at hk
      exact absurd hk.1 (Int.lt_irrefl _)
    · exact fun _ _ _ => ⟨rfl, rfl⟩
  · have hl := hi.list s.nextAddr
    exact ⟨fun h => absurd (hr.symm.trans h) Bool.false_ne_true, fun _ h => absurd h0 h,
      hl.releases_le, fun h => absurd h (Int.not_le.mpr (Int.lt_succ _)), hl.member,
      hl.retired⟩
  · rw [hpc]
    refine ⟨Int.lt_succ _, hr, h0, hd, by decide, {}, ?_, rfl⟩
    simp [Registry.publish]
  · rw [hpc]
    intro b j ops hp
    rw [RegPc.creating.injEq] at hp
    exact Or.inl (Int.le_of_eq hp.1)
  · rw [hpc]
    exact hi.unused (by rw [hu]; rfl)

/-- The creator changes its object, which nobody else has found. -/
theorem Inv.creating (hi : s.Inv) {i : ListId} {ops : List InitOp}
    (ht : s.pc t = .creating a i ops) (x : Option UmsComplist) (p : RegPc)
    (hknows : ({ s with obj := Function.update s.obj a x }.setPc t p).Knows t p)
    (hp : ∀ b j os, p = .creating b j os → b = a) (huses : p.uses = none) :
    ({ s with obj := Function.update s.obj a x }.setPc t p).Inv := by
  obtain ⟨hr, h0, -, -, hcr⟩ := hi.alone ht
  have hpc : ({ s with obj := Function.update s.obj a x }.setPc t p).pc t = p := by
    simp [Registry.setPc]
  apply hi.act (t := t) (a := a)
  · constructor
    · exact fun u hu => by simp [Registry.setPc, hu]
    · exact Int.le_refl _
    · exact fun b hb => ⟨by simp [Registry.setPc, hb], rfl, rfl, rfl, rfl⟩
    · exact fun _ _ _ => rfl
    · exact fun _ _ _ _ h => h
    · exact id
    · exact fun u j os hu hc => hu (hcr u j os hc)
    · exact fun _ _ _ => ⟨rfl, rfl⟩
  · have hl := hi.list a
    exact ⟨fun h => absurd (hr.symm.trans h) Bool.false_ne_true, fun _ h => absurd h0 h,
      hl.releases_le, hl.fresh, hl.member, hl.retired⟩
  · rw [hpc]
    exact hknows
  · rw [hpc]
    intro b j os hb
    exact Or.inr ⟨i, ops, by rw [hp b j os hb, ht]⟩
  · rw [hpc, huses]
    exact hi.unused (by rw [ht]; rfl)

theorem Inv.store (hi : s.Inv) (i : ListId) (op : InitOp) (ops : List InitOp)
    (ht : s.pc t = .creating a i (op :: ops)) (o : UmsComplist)
    (ho : o.refcount = if .krefInit ∈ ops then 0 else 1) :
    ({ s with obj := Function.update s.obj a (some o) }.setPc t (.creating a i ops)).Inv := by
  obtain ⟨hr, h0, hd, -, -⟩ := hi.alone ht
  have hk := hi.knows t
  rw [ht] at hk
  refine hi.creating ht (some o) _ ?_ (fun b j os hb => ?_) rfl
  · exact ⟨hk.1, hr, h0, hd, (List.nodup_cons.mp hk.2.2.2.2.1).2, o, by simp [Registry.setPc], ho⟩
  · rw [RegPc.creating.injEq] at hb
    exact hb.1.symm

/-- The object after one step of its initialisation. -/
def InitOp.object (i : ListId) (o : UmsComplist) : InitOp → UmsComplist
  | .setId => { o with id := i }
  | .krefInit => { o with refcount := 1 }
  | _ => o

def InitOp.heap (h : Heap Node) (a : Addr) : InitOp → Heap Node
  | .initListHead => initListHead h (.head a)
  | _ => h

theorem initStep_eq (i : ListId) (o : UmsComplist) (op : InitOp) (ho : s.obj a = some o) :
    s.initStep a i o op = { s with
      obj := Function.update s.obj a (some (InitOp.object i o op))
      heap := InitOp.heap s.heap a op } := by
  have hsame : Function.update s.obj a (some o) = s.obj := by
    rw [← ho, Function.update_eq_self]
  cases op <;> simp [initStep, InitOp.object, InitOp.heap, hsame]

theorem Inv.initStep (hi : s.Inv) (i : ListId) (op : InitOp) (ops : List InitOp) (o : UmsComplist)
    (ht : s.pc t = .creating a i (op :: ops)) (ho : s.obj a = some o) :
    ((s.initStep a i o op).setPc t (.creating a i ops)).Inv := by
  have hk := hi.knows t
  rw [ht] at hk
  obtain ⟨-, -, -, -, hnd, o', ho', href⟩ := hk
  obtain rfl : o = o' := Option.some.inj (ho.symm.trans ho')
  rw [initStep_eq i o op ho]
  refine (hi.store i op ops ht (InitOp.object i o op) ?_).mask (InitOp.heap s.heap a op) s.idr
    s.nextContext s.table s.readers s.fault
  -- `kref_init` occurs once among the steps, so it is behind `op` unless it is `op`
  have hnot := (List.nodup_cons.mp hnd).1
  cases op with
  | krefInit => simp [InitOp.object, hnot]
  | setId => simpa [InitOp.object] using href
  | setData => simpa [InitOp.object] using href
  | spinLockInit => simpa [InitOp.object] using href
  | initListHead => simpa [InitOp.object] using href
  | initWaitqueueHead => simpa [InitOp.object] using href

/-- The creator returns. -/
theorem Inv.created (hi : s.Inv) (i : ListId) (ht : s.pc t = .creating a i []) :
    ({ s.setPc t .user with ready := Function.update s.ready a true } : Registry).Inv := by
  obtain ⟨hr, h0, hd, hn, hcr⟩ := hi.alone ht
  have hk := hi.knows t
  rw [ht] at hk
  obtain ⟨hlt, -, -, -, -, o, ho, href⟩ := hk
  have hpc : (s.setPc t .user).pc t = .user := by simp [Registry.setPc]
  apply hi.act (t := t) (a := a)
  · constructor
    · exact fun u hu => by simp [Registry.setPc, hu]
    · exact Int.le_refl _
    · exact fun b hb => ⟨rfl, by simp [hb], rfl, rfl, rfl⟩
    · exact fun _ _ _ => rfl
    · exact fun _ _ _ _ h => h
    · exact id
    · exact fun u j os hu hc => hu (hcr u j os hc)
    · intro u _ hm
      rw [hn] at hm
      cases hm
  · have hl := hi.list a
    have hnew : Function.update s.ready a true a = true := by simp
    exact ⟨fun _ _ => ⟨o, ho, by simp [href]⟩, fun _ h => absurd h0 h, hl.releases_le,
      fun h => absurd hlt (Int.not_lt.mpr h), fun _ _ _ => hnew, hl.retired⟩
  · rw [hpc]
    trivial
  · rw [hpc]
    exact fun _ _ _ h => by cases h
  · rw [hpc]
    exact hi.unused (by rw [ht]; rfl)

/-- The creator gives up and frees the object. -/
theorem Inv.discard (hi : s.Inv) (i : ListId) (ops : List InitOp)
    (ht : s.pc t = .creating a i ops) :
    ({ s with obj := Function.update s.obj a none }.setPc t .user).Inv :=
  hi.creating ht none .user trivial (fun _ _ _ h => by cases h) rfl

/-- The RCU callback frees a released object. -/
theorem Inv.free (hi : s.Inv) (ha : s.releases a ≠ 0) :
    ({ s with obj := Function.update s.obj a none } : Registry).Inv where
  knows u := by
    refine (hi.knows u).frame (Int.le_refl _) (fun _ => rfl) (fun _ hb => hb)
      (fun _ _ => ⟨rfl, rfl⟩) ?_
    intro b i ops hc
    have hk := hi.knows u
    rw [hc] at hk
    have hb : b ≠ a := by
      rintro rfl
      exact ha hk.2.2.1
    exact ⟨by simp [hb], rfl, rfl, rfl⟩
  inUse := hi.inUse
  creator := hi.creator
  list b := by
    by_cases hb : b = a
    · subst hb
      have hl := hi.list b
      exact ⟨fun _ h => absurd h ha, fun o _ ho => by simp at ho, hl.releases_le, hl.fresh,
        hl.member, hl.retired⟩
    · exact (hi.list b).frame (Int.le_refl _) (fun _ _ hu => hu)
        ⟨by simp [hb], rfl, rfl, rfl, rfl⟩

/-- `call_rcu`, on a list that has been released. -/
theorem Inv.retire (hi : s.Inv) (ha : s.releases a ≠ 0) :
    ({ s with retired := Function.update s.retired a true } : Registry).Inv where
  knows u := (hi.knows u).frame (Int.le_refl _) (fun _ => rfl) (fun _ hb => hb)
    (fun _ _ => ⟨rfl, rfl⟩) (fun _ _ _ _ => ⟨rfl, rfl, rfl, rfl⟩)
  inUse := hi.inUse
  creator := hi.creator
  list b := by
    by_cases hb : b = a
    · subst hb
      have hl := hi.list b
      exact ⟨hl.live, hl.spent, hl.releases_le, hl.fresh, hl.member, fun _ => ha⟩
    · exact (hi.list b).frame (Int.le_refl _) (fun _ _ hu => hu)
        ⟨rfl, rfl, rfl, rfl, by simp [hb]⟩

/-- `put_ums_complist` returns, with no list looked up but the one that was put. -/
theorem Inv.putReturns (hi : s.Inv) (hu : ∀ b, (s.pc t).uses = some b → b = a) (k : Option Role)
    (hk : k ≠ none → (s.pc t).uses = none) : (s.putReturns t a k).Inv := by
  cases k with
  | none => exact hi.leave hu
  | some r => exact hi.setPc (.dropping r a) (hk (by simp)).symm trivial (fun _ _ _ h => by cases h)

/-- Nobody creates a list that is ready. -/
theorem Inv.not_creating (hi : s.Inv) (ha : s.ready a = true) (u : Pid) (i : ListId)
    (ops : List InitOp) : s.pc u ≠ .creating a i ops := by
  intro hu
  rw [(hi.alone hu).1] at ha
  exact Bool.false_ne_true ha

theorem Inv.not_fresh (hi : s.Inv) (ha : s.ready a = true) : ¬ s.nextAddr ≤ a := by
  intro hn
  rw [((hi.list a).fresh hn).1] at ha
  exact Bool.false_ne_true ha

/-- A reference is taken. -/
theorem Inv.getUmsComplist (hi : s.Inv) {r : Role} (ht : s.pc t = .attaching r a)
    (o : UmsComplist) (ho : s.obj a = some o) : (s.getUmsComplist a o).Inv := by
  have hs := (hi.knows t).settled (a := a) (by rw [ht]; rfl)
  have hl := hi.list a
  have hone : 1 ≤ o.refcount := by
    obtain ⟨o', ho', h1⟩ := hl.live hs.1 hs.2
    rwa [Option.some.inj (ho.symm.trans ho')]
  apply hi.act (t := t) (a := a)
  · constructor
    · exact fun _ _ => rfl
    · exact Int.le_refl _
    · exact fun b hb => ⟨by simp [Registry.getUmsComplist, hb], rfl, rfl, rfl, rfl⟩
    · exact fun _ _ _ => rfl
    · exact fun _ _ _ _ h => h
    · exact id
    · exact fun u j os _ => hi.not_creating hs.1 u j os
    · exact fun _ _ _ => ⟨rfl, rfl⟩
  · exact ⟨fun _ _ => ⟨_, by simp [Registry.getUmsComplist]; rfl, by simp only; omega⟩,
      fun _ h => absurd hs.2 h, hl.releases_le, hl.fresh, hl.member, hl.retired⟩
  · rw [Registry.getUmsComplist, ht]
    exact hs
  · rw [Registry.getUmsComplist, ht]
    exact fun _ _ _ h => by cases h
  · intro x b
    by_cases hx : x = t
    · rw [if_pos hx, hx]
      exact hi.inUse t b
    · rw [if_neg hx]
      exact Iff.rfl

/-- A reference is put that is not the last one. -/
theorem Inv.drop (hi : s.Inv) (ha : s.ready a = true) (o : UmsComplist) (ho : s.obj a = some o)
    (hne : o.refcount - 1 ≠ 0) (d : ℕ) :
    ({ s with
      obj := Function.update s.obj a (some { o with refcount := o.refcount - 1 })
      deletes := Function.update s.deletes a d } : Registry).Inv where
  knows u := by
    refine (hi.knows u).frame (Int.le_refl _) (fun _ => rfl) (fun _ hb => hb)
      (fun _ _ => ⟨rfl, rfl⟩) (fun b i ops hc => ?_)
    have hb : b ≠ a := by
      rintro rfl
      exact hi.not_creating ha u i ops hc
    simp [hb]
  inUse := hi.inUse
  creator := hi.creator
  list b := by
    by_cases hb : b = a
    · subst hb
      have hl := hi.list b
      refine ⟨fun _ h0 => ?_, fun o' h0 ho' => ?_, hl.releases_le,
        fun h => absurd h (hi.not_fresh ha), hl.member, hl.retired⟩
      · -- the count was positive and is not one, so it stays positive
        obtain ⟨o', ho', h1⟩ := hl.live ha h0
        obtain rfl := Option.some.inj (ho.symm.trans ho')
        exact ⟨_, by simp; rfl, by simp only; omega⟩
      · simp only [Function.update_self, Option.some.injEq] at ho'
        have := hl.spent o h0 ho
        rw [← ho']
        simp only
        omega
    · exact (hi.list b).frame (Int.le_refl _) (fun _ _ hu => hu)
        ⟨by simp [hb], rfl, rfl, by simp [hb], rfl⟩

/-- The last reference is put, and nobody is using the list. -/
theorem Inv.release (hi : s.Inv) (ht : (s.pc t).uses = none) (ha : s.ready a = true)
    (o : UmsComplist) (ho : s.obj a = some o) (he : o.refcount - 1 = 0) (k : Option Role) (d : ℕ)
    (hq : s.inUse a = []) :
    ({ s.setPc t (.removing k a) with
      obj := Function.update s.obj a (some { o with refcount := o.refcount - 1 })
      deletes := Function.update s.deletes a d
      releases := Function.update s.releases a (s.releases a + 1) } : Registry).Inv := by
  have hl := hi.list a
  have h0 : s.releases a = 0 := by
    by_contra hne
    have := hl.spent o hne ho
    omega
  have hpc : (s.setPc t (.removing k a)).pc t = .removing k a := by simp [Registry.setPc]
  apply hi.act (t := t) (a := a)
  · constructor
    · exact fun u hu => by simp [Registry.setPc, hu]
    · exact Int.le_refl _
    · exact fun b hb => ⟨by simp [hb], rfl, by simp [hb], by simp [hb], rfl⟩
    · exact fun _ _ _ => rfl
    · exact fun _ _ _ _ h => h
    · exact fun _ => by simp
    · exact fun u j os _ => hi.not_creating ha u j os
    · -- nobody is in the middle of a use, so nobody loses the object under their hands
      intro u _ hm
      rw [hq] at hm
      cases hm
  · constructor
    · exact fun _ h => absurd h (by simp)
    · intro o' _ ho'
      simp only [Function.update_self, Option.some.injEq] at ho'
      rw [← ho']
      exact Int.le_of_eq he
    · simp [h0]
    · exact fun h => absurd h (hi.not_fresh ha)
    · exact hl.member
    · exact fun _ => by simp
  · rw [hpc]
    simp [Knows]
  · rw [hpc]
    exact fun _ _ _ h => by cases h
  · rw [hpc]
    exact hi.unused ht

/-- `put_ums_complist` by a thread at a delete or at the end of a context. -/
theorem Inv.putUmsComplist (hi : s.Inv) (hu : ∀ b, (s.pc t).uses = some b → b = a)
    (ha : s.ready a = true) (o : UmsComplist) (ho : s.obj a = some o) (k : Option Role)
    (hk : k ≠ none → (s.pc t).uses = none) (d : ℕ)
    (hq : o.refcount = 1 → ∀ x ∈ s.inUse a, x = t) :
    ({ s with deletes := Function.update s.deletes a d }.putUmsComplist t a o k).Inv := by
  rw [Registry.putUmsComplist]
  split
  · rename_i he
    have hleft := hi.done hu .user rfl trivial (fun _ _ _ h => by cases h)
    have hempty : ((s.done t a).setPc t .user).inUse a = [] := by
      apply List.eq_nil_iff_forall_not_mem.mpr
      intro x hx
      have hx' := (mem_done hi hu x a).mp hx
      by_cases hxt : x = t
      · rwa [if_pos hxt] at hx'
      · rw [if_neg hxt] at hx'
        exact hxt (hq (by omega) x hx')
    have hrel := hleft.release (t := t) (by simp [Registry.setPc, RegPc.uses]) ha o ho he k d hempty
    simp only [Registry.setPc, Function.update_idem] at hrel
    exact hrel
  · rename_i hne
    exact (hi.drop ha o ho hne d).putReturns hu k hk

theorem Inv.crash (hi : s.Inv) (t : Pid) : (s.crash t).Inv := by
  refine (hi.move t .oops (s.crash t).inUse trivial (fun _ _ _ h => by cases h) ?_).mask
    s.heap s.idr s.nextContext s.table s.readers true
  intro x b
  by_cases hx : x = t <;> simp [Registry.crash, RegPc.uses, hx]

/-- A thread that is done with the list it has looked up. -/
theorem Inv.uses_eq (p : RegPc) (ht : s.pc t = p) (hp : p.uses = some a ∨ p.uses = none)
    (b : Addr) (hb : (s.pc t).uses = some b) : b = a := by
  rw [ht] at hb
  rcases hp with hp | hp
  · exact Option.some.inj (hb.symm.trans hp)
  · rw [hp] at hb
    cases hb

theorem Inv.createContext (hi : s.Inv) (ht : s.pc t = .user) (r : Role) :
    (s.createContext t r).Inv := by
  refine (hi.assign (t := t) r none (fun _ h => by cases h) ?_).mask s.heap s.idr s.nextContext
    (s.createContext t r).table s.readers s.fault
  rw [ht]
  exact fun _ => ⟨by simp, by simp⟩

theorem Inv.storeComplist (hi : s.Inv) {r : Role} (ht : s.pc t = .storing r a) :
    (s.storeComplist t a r).Inv := by
  have hs := (hi.knows t).settled (a := a) (by rw [ht]; rfl)
  apply hi.assign r (some a)
  · rintro _ ⟨⟩
    exact hs.1
  · rw [ht]
    exact fun _ => ⟨by simp, by simp⟩

/-- Every step of an orderly run keeps the invariant. -/
theorem Inv.step (hi : s.Inv) (act : RegAct) (hok : OrderlyLookup s act) (hq : QuietLastPut s act)
    (h : s.step act = some s') : s'.Inv := by
  cases step_steps h with
  | publish t i ht => exact hi.publish i ht
  | deleteNone | dequeueNone | endNone => exact hi
  | enterNone t r i ht => exact (hi.createContext ht r).crash t
  | endUnassigned t | runBreaks t | copyBreaks t => exact hi.crash t
  | enter t r i a ht hnew hidr => exact (hi.createContext ht r).hold ht _ rfl (hok.2 a hidr)
  | delete t i a ht hidr | dequeue t i a ht hidr => exact hi.hold ht _ rfl (hok a hidr)
  | endWorker t a ht hw hc =>
    exact (hi.setPc (t := t) (.ending .worker a) (by rw [ht]; rfl) hc
      (fun _ _ _ h => by cases h)).mask s.heap s.idr s.nextContext s.table _ s.fault
  | initStep t a i op ops o ht ho => exact hi.initStep i op ops o ht ho
  | created t a i ht => exact hi.created i ht
  | get t r a o ht ho =>
    have hk := hi.knows t
    rw [ht] at hk
    exact ((hi.getUmsComplist ht o ho).setPc (t := t) (.storing r a)
      (congrArg RegPc.uses ht).symm hk (fun _ _ _ h => by cases h)).mask
        s.heap s.idr s.nextContext s.table _ s.fault
  | storeWorker t a ht =>
    have hk := hi.knows t
    rw [ht] at hk
    exact (hi.storeComplist ht).setPc (.inserting a) (congrArg RegPc.uses ht).symm hk
      (fun _ _ _ h => by cases h)
  | storeScheduler t a ht =>
    exact (hi.storeComplist ht).done (Inv.uses_eq _ ht (Or.inl rfl)) (.startup a) rfl
      (by simp [Knows, Registry.storeComplist]) (fun _ _ _ h => by cases h)
  | insert t a h ht hadd =>
    exact (hi.done (Inv.uses_eq _ ht (Or.inl rfl)) .suspended rfl trivial
      (fun _ _ _ h => by cases h)).mask _ s.idr (s.nextContext + 1) s.table s.readers s.fault
  | started t a ht => exact hi.setPc .user (by rw [ht]; rfl) trivial (fun _ _ _ h => by cases h)
  | putDeleted t a o ht ho =>
    have hk := hi.knows t
    rw [ht] at hk
    simp only [QuietLastPut, ht] at hq
    exact hi.putUmsComplist (Inv.uses_eq _ ht (Or.inl rfl)) hk.1 o ho none (absurd rfl) _
      (fun h1 => hq (by rw [ho, Option.map_some, h1]))
  | take t a c h ht hne htake =>
    have hk := hi.knows t
    rw [ht] at hk
    exact (hi.setPc (t := t) (.reporting a c) (by rw [ht]; rfl) hk
      (fun _ _ _ h => by cases h)).mask _ s.idr s.nextContext s.table s.readers s.fault
  | report t a c ht => exact hi.leave (Inv.uses_eq _ ht (Or.inl rfl))
  | putEnded t r a o ht ho =>
    have hk := hi.knows t
    rw [ht] at hk
    simp only [QuietLastPut, ht] at hq
    -- the count of deletes stays
    have hput := hi.putUmsComplist (Inv.uses_eq _ ht (Or.inr rfl)) ((hi.list a).member r t hk) o ho
      (some r) (fun _ => by rw [ht]; rfl) (s.deletes a)
      (fun h1 => hq (by rw [ho, Option.map_some, h1]))
    rwa [Function.update_eq_self] at hput
  | remove t k a o ht ho =>
    have hk := hi.knows t
    rw [ht] at hk
    exact (hi.setPc (t := t) (.retiring k a) (by rw [ht]; rfl) hk
      (fun _ _ _ h => by cases h)).mask s.heap _ s.nextContext s.table s.readers s.fault
  | retire t k a ht =>
    have hk := hi.knows t
    rw [ht] at hk
    have hput : (s.putReturns t a k).Inv :=
      hi.putReturns (Inv.uses_eq _ ht (Or.inr rfl)) k fun _ => by rw [ht]; rfl
    cases k with
    | none => exact hput.retire hk
    | some r => exact hput.retire hk
  | drop t r a ht =>
    exact (hi.setPc (t := t) .user (by rw [ht]; rfl) trivial (fun _ _ _ h => by cases h)).mask
      s.heap s.idr s.nextContext _ _ s.fault
  | discard t a i o ht ho =>
    exact (hi.discard i [] ht).mask s.heap _ s.nextContext s.table s.readers s.fault
  | putBack t a c h ht hadd =>
    exact (hi.leave (Inv.uses_eq _ ht (Or.inl rfl))).mask _ s.idr s.nextContext s.table _ s.fault
  | interrupt t a ht => exact hi.leave (Inv.uses_eq _ ht (Or.inl rfl))
  | noEvent t a ht =>
    have hk := hi.knows t
    rw [ht] at hk
    exact hi.setPc (.ending .scheduler a) (by rw [ht]; rfl) hk (fun _ _ _ h => by cases h)
  | resume t ht => exact hi.setPc .user (by rw [ht]; rfl) trivial (fun _ _ _ h => by cases h)
  | free a hret => exact hi.free ((hi.list a).retired hret)

end Registry

/-- `get_ums_complist` is not about to run on a list whose count has already reached zero, and
no list is released twice. -/
structure Registry.NoDyingGet (s : Registry) : Prop where
  get : ∀ t r a, s.pc t = .attaching r a → s.releases a = 0
  release : ∀ a, s.releases a ≤ 1

theorem orderly_inv (s : Registry)
    (hr : Transition.Reach Registry.step Orderly Registry.init s) : s.Inv :=
  hr.invariant Registry.Inv registry_inv_init (fun _ act _ hi hok h => hi.step act hok.1 hok.2 h)

/-- In an orderly run no reference is taken on a dying list. -/
theorem no_reference_to_dying_list (s : Registry)
    (hr : Transition.Reach Registry.step Orderly Registry.init s) : s.NoDyingGet where
  get t r a ht := by
    have hs := ((orderly_inv s hr).knows t).settled (a := a) (by rw [ht]; rfl)
    exact hs.2
  release a := ((orderly_inv s hr).list a).releases_le

/-- One list, created by thread 1 under id 1. -/
def createList : List RegAct := .create 1 1 :: List.replicate 7 (.run 1)

/-- Thread `t` enters as worker with list 1 and is queued. -/
def enterWorker (t : Pid) : List RegAct := .enter t .worker 1 :: List.replicate 3 (.run t)

/-- Thread `t` enters as scheduler with list 1. -/
def enterScheduler (t : Pid) : List RegAct := .enter t .scheduler 1 :: List.replicate 3 (.run t)

/-- A worker enters, the list is deleted, and the worker ends: the last reference goes with it. -/
def orderlyLife : List RegAct :=
  createList ++ enterWorker 2 ++ [.delete 1 1, .run 1, .resume 2, .endWorker 2, .run 2, .run 2,
    .run 2, .run 2, .free 0]

theorem no_reference_to_dying_list_sample :
    ∃ s, Transition.Reach Registry.step Orderly Registry.init s ∧
      (s.releases 0 = 1 ∧ s.obj 0 = none) ∧ s.NoDyingGet := by
  obtain ⟨s, hr, hs⟩ := Transition.Reach.exists_of_run Registry.step Orderly Registry.init
    orderlyLife (fun s => s.releases 0 = 1 ∧ s.obj 0 = none) (by decide +kernel)
  exact ⟨s, hr, hs, no_reference_to_dying_list s hr⟩

/-- With lookups in order and one delete, an enter that has found the list takes a reference
after the delete has put the last one; when that worker ends, the list is released again. -/
theorem reference_to_dying_list :
    (∃ s, Transition.Reach Registry.step (fun s act => OrderlyLookup s act ∧ DeletedOnce s act)
        Registry.init s ∧ s.pc 2 = .attaching .worker 0 ∧ s.releases 0 = 1) ∧
      ∃ s, Transition.Reach Registry.step (fun s act => OrderlyLookup s act ∧ DeletedOnce s act)
        Registry.init s ∧ s.releases 0 = 2 := by
  constructor
  · exact Transition.Reach.exists_of_run Registry.step
      (fun s act => OrderlyLookup s act ∧ DeletedOnce s act) Registry.init
      (createList ++ [.enter 2 .worker 1, .delete 1 1, .run 1])
      _ (by decide +kernel)
  · exact Transition.Reach.exists_of_run Registry.step
      (fun s act => OrderlyLookup s act ∧ DeletedOnce s act) Registry.init
      (createList ++ [.enter 2 .worker 1, .delete 1 1, .run 1, .run 2, .run 2, .run 2, .resume 2,
        .endWorker 2, .run 2])
      _ (by decide +kernel)

end LinuxUms
