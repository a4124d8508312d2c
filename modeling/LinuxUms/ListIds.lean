import LinuxUms.RingFamily
import LinuxUms.Transition
import Mathlib.Algebra.Order.Ring.Int
import Mathlib.Logic.Function.Basic

/-! The ids of completion lists: `create_ums_complist` and `ums_complist_delete` with the id table
of `idr_l.h`. What `IDR_L_ALLOC` returns is an id or a negative error, in one `int`. -/
namespace LinuxUms.Ids

open Transition

def einval : ℤ := 22

def enomem : ℤ := 12

def eacces : ℤ := 13

def enospc : ℤ := 28

def intMax : ℤ := 2 ^ 31 - 1

/-- The members of a `struct ums_complist` that the ids depend on. -/
structure IdList where
  id : ℤ
  refcount : ℕ
  deriving DecidableEq

/-- `compLists` is the id table. A list is at its address in `complist` from its allocation to its
release, and `handed` records the id that the user was given for it. -/
structure State where
  compLists : ℤ → Option ℕ
  complist : ℕ → Option IdList
  next : ℕ
  handed : ℕ → Option ℤ

def State.init : State := ⟨fun _ => none, fun _ => none, 0, fun _ => none⟩

/-- What `idr_alloc` comes to: some id, or an error. -/
inductive IdrLuck where
  | id (n : ℤ)
  | enomem
  | enospc
  deriving DecidableEq

structure CreateLuck where
  memory : Bool
  idr : IdrLuck
  copy : Bool

/-- `idr_alloc(idr, ptr, 1, -1, flags)`, which may take any id that is free. -/
def idrLAlloc (t : ℤ → Option ℕ) (a : ℕ) : IdrLuck → Option (ℤ × (ℤ → Option ℕ))
  | .id n =>
    if 1 ≤ n ∧ n ≤ intMax ∧ t n = none then some (n, Function.update t n (some a)) else none
  | .enomem => some (-enomem, t)
  | .enospc => some (-enospc, t)

def idrLRemove (t : ℤ → Option ℕ) (id : ℤ) : ℤ → Option ℕ := Function.update t id none

namespace State

def umsComplistInit (s : State) (a : ℕ) (luck : IdrLuck) : Option (ℤ × State) :=
  (idrLAlloc s.compLists a luck).map fun (retval, t) =>
    -- an error is not 0 either
    if retval = 0 then (retval, { s with compLists := t })
    else (0, { s with
      compLists := t
      complist := Function.update s.complist a (some ⟨retval, 1⟩) })

def freeUmsComplist (s : State) (a : ℕ) : State :=
  { s with complist := Function.update s.complist a none }

def umsComplistDeinit (s : State) (l : IdList) : State :=
  { s with compLists := idrLRemove s.compLists l.id }

/-- The memory for the list is zeroed. -/
def createUmsComplist (s : State) (luck : CreateLuck) : Option (ℤ × State) :=
  if luck.memory = false then some (-enomem, s)
  else
    let a := s.next
    let s := { s with
      complist := Function.update s.complist a (some ⟨0, 0⟩)
      next := s.next + 1 }
    (s.umsComplistInit a luck.idr).map fun (retval, s) =>
      if retval ≠ 0 then (retval, s.freeUmsComplist a)
      else
        let l := (s.complist a).getD ⟨0, 0⟩
        if luck.copy then (0, { s with handed := Function.update s.handed a (some l.id) })
        else (-eacces, (s.umsComplistDeinit l).freeUmsComplist a)

/-- `kref_put` with `ums_complist_release`; the memory is freed after a grace period. -/
def putUmsComplist (s : State) (a : ℕ) (l : IdList) : State :=
  if l.refcount = 1 then (s.umsComplistDeinit l).freeUmsComplist a
  else
    { s with
      complist := Function.update s.complist a (some { l with refcount := l.refcount - 1 }) }

/-- A pointer that does not lead to a list is not followed. -/
def getUmsComplist (s : State) (a : ℕ) : State :=
  match s.complist a with
  | none => s
  | some l =>
    { s with complist := Function.update s.complist a (some { l with refcount := l.refcount + 1 }) }

def putPointer (s : State) : Option ℕ → State
  | none => s
  | some a =>
    match s.complist a with
    | none => s
    | some l => s.putUmsComplist a l

/-- A pointer in the table to a list that is gone would be a use of freed memory, and there is no
such step. -/
def umsComplistDelete (s : State) (id : ℤ) : Option (ℤ × State) :=
  match s.compLists id with
  | none => some (-einval, s)
  | some a => (s.complist a).map fun l => (0, s.putUmsComplist a l)

end State

inductive Act where
  | create (luck : CreateLuck)
  | delete (id : ℤ)

def State.step (s : State) : Act → Option State
  | .create luck => (s.createUmsComplist luck).map (·.2)
  | .delete id => (s.umsComplistDelete id).map (·.2)

/-- A create that gets no id does not get its copy done either. -/
def GetsId (_ : State) : Act → Prop
  | .create luck => luck.memory → luck.copy → luck.idr ≠ .enomem ∧ luck.idr ≠ .enospc
  | .delete _ => True

instance (s : State) (a : Act) : Decidable (GetsId s a) := by
  cases a <;> unfold GetsId <;> infer_instance

/-- The table leads to every list by the id that was handed out for it, and to nothing else. -/
structure Inv (s : State) : Prop where
  resolves : ∀ a l, s.complist a = some l →
    0 < l.id ∧ l.refcount = 1 ∧ s.compLists l.id = some a ∧ s.handed a = some l.id
  table : ∀ id a, s.compLists id = some a → ∃ l, s.complist a = some l ∧ l.id = id
  fresh : ∀ a, s.next ≤ a → s.complist a = none

namespace Inv

variable {s s' : State}

theorem init : Inv State.init where
  resolves a l h := by cases h
  table id a h := by cases h
  fresh a h := rfl

theorem not_pos (h : Inv s) (id : ℤ) (hid : id ≤ 0) : s.compLists id = none := by
  cases ht : s.compLists id with
  | none => rfl
  | some a =>
    obtain ⟨l, hl, rfl⟩ := h.table id a ht
    have hpos := (h.resolves a l hl).1
    omega

/-- The state after a create that returns 0 with the id `n`. -/
def withList (s : State) (n : ℤ) : State where
  compLists := Function.update s.compLists n (some s.next)
  complist := Function.update s.complist s.next (some ⟨n, 1⟩)
  next := s.next + 1
  handed := Function.update s.handed s.next (some n)

/-- Whatever `IDR_L_ALLOC` returns is taken for an id. -/
theorem create_of_alloc (luck : CreateLuck) (retval : ℤ) (t : ℤ → Option ℕ)
    (hm : luck.memory = true) (hne : retval ≠ 0)
    (halloc : idrLAlloc s.compLists s.next luck.idr = some (retval, t)) :
    s.createUmsComplist luck = some (
      if luck.copy then
        (0, ⟨t, Function.update s.complist s.next (some ⟨retval, 1⟩), s.next + 1,
          Function.update s.handed s.next (some retval)⟩)
      else
        (-eacces, ⟨idrLRemove t retval, Function.update s.complist s.next none, s.next + 1,
          s.handed⟩)) := by
  simp only [State.createUmsComplist, State.umsComplistInit, hm, halloc, Bool.true_eq_false,
    if_false, Option.map_some, if_neg hne, ne_eq, not_true_eq_false, Function.update_self,
    Option.getD_some, State.umsComplistDeinit, State.freeUmsComplist, Function.update_idem]

/-- A create that fails puts the table and the lists back, whether it had got an id or not. -/
theorem removed (h : Inv s) (t : ℤ → Option ℕ) (id : ℤ) (hid : s.compLists id = none)
    (ht : t = s.compLists ∨ t = Function.update s.compLists id (some s.next)) :
    idrLRemove t id = s.compLists ∧ Function.update s.complist s.next none = s.complist := by
  constructor
  · rcases ht with rfl | rfl
    · exact Function.update_eq_self_iff.mpr hid.symm
    · rw [idrLRemove, Function.update_idem]
      exact Function.update_eq_self_iff.mpr hid.symm
  · exact Function.update_eq_self_iff.mpr (h.fresh s.next le_rfl).symm

theorem create_cases (h : Inv s) (luck : CreateLuck) (ret : ℤ)
    (hok : GetsId s (.create luck)) (hc : s.createUmsComplist luck = some (ret, s')) :
    (ret < 0 ∧ ∃ n, s.next ≤ n ∧ s' = { s with next := n }) ∨
    (ret = 0 ∧ ∃ n, 0 < n ∧ s.compLists n = none ∧ s' = withList s n) := by
  cases hm : luck.memory with
  | false =>
    simp only [State.createUmsComplist, hm, if_true, Option.some.injEq, Prod.mk.injEq] at hc
    obtain ⟨rfl, rfl⟩ := hc
    exact Or.inl ⟨by decide, s.next, le_rfl, rfl⟩
  | true =>
    -- without an id the copy is not done
    have herror (err : ℤ) (herr : err < 0)
        (halloc : idrLAlloc s.compLists s.next luck.idr = some (err, s.compLists))
        (hcopy : luck.copy = false) : ret < 0 ∧ ∃ n, s.next ≤ n ∧ s' = { s with next := n } := by
      have hid := h.not_pos err herr.le
      obtain ⟨htable, hlists⟩ := h.removed s.compLists err hid (Or.inl rfl)
      rw [create_of_alloc luck err s.compLists hm herr.ne halloc, if_neg (by simp [hcopy]), htable,
        hlists] at hc
      cases hc
      exact ⟨by decide, s.next + 1, Nat.le_succ _, rfl⟩
    cases hidr : luck.idr with
    | enomem =>
      refine Or.inl (herror (-enomem) (by decide) (by rw [hidr]; rfl) ?_)
      by_contra hcopy
      exact (hok hm (by simpa using hcopy)).1 hidr
    | enospc =>
      refine Or.inl (herror (-enospc) (by decide) (by rw [hidr]; rfl) ?_)
      by_contra hcopy
      exact (hok hm (by simpa using hcopy)).2 hidr
    | id n =>
      by_cases hfree : 1 ≤ n ∧ n ≤ intMax ∧ s.compLists n = none
      · have halloc : idrLAlloc s.compLists s.next luck.idr =
            some (n, Function.update s.compLists n (some s.next)) := by
          rw [hidr]
          exact if_pos hfree
        rw [create_of_alloc luck n _ hm (by omega) halloc] at hc
        cases hcopy : luck.copy with
        | true =>
          rw [hcopy, if_pos rfl] at hc
          cases hc
          exact Or.inr ⟨rfl, n, by omega, hfree.2.2, rfl⟩
        | false =>
          obtain ⟨htable, hlists⟩ := h.removed _ n hfree.2.2 (Or.inr rfl)
          rw [hcopy, if_neg Bool.false_ne_true, htable, hlists] at hc
          cases hc
          exact Or.inl ⟨by decide, s.next + 1, Nat.le_succ _, rfl⟩
      · have halloc : idrLAlloc s.compLists s.next (.id n) = none := if_neg hfree
        simp [State.createUmsComplist, State.umsComplistInit, hm, hidr, halloc] at hc

theorem withList_inv (h : Inv s) (n : ℤ) (hpos : 0 < n) (hfree : s.compLists n = none) :
    Inv (withList s n) where
  resolves a l hl := by
    rcases KernelList.update_some_cases hl with ⟨rfl, rfl⟩ | ⟨ha, hl⟩
    · exact ⟨hpos, rfl, Function.update_self _ _ _, Function.update_self _ _ _⟩
    · obtain ⟨hid, href, ht, hh⟩ := h.resolves a l hl
      -- the id of another list was not free
      have hne : l.id ≠ n := by
        intro he
        rw [he, hfree] at ht
        cases ht
      exact ⟨hid, href, (Function.update_of_ne hne _ _).trans ht,
        (Function.update_of_ne ha _ _).trans hh⟩
  table id a ht := by
    rcases KernelList.update_some_cases ht with ⟨rfl, rfl⟩ | ⟨-, ht⟩
    · exact ⟨⟨id, 1⟩, Function.update_self _ _ _, rfl⟩
    · obtain ⟨l, hl, hl'⟩ := h.table id a ht
      have hne : a ≠ s.next := by
        intro he
        rw [he, h.fresh s.next le_rfl] at hl
        cases hl
      exact ⟨l, (Function.update_of_ne hne _ _).trans hl, hl'⟩
  fresh a ha := by
    have hne : a ≠ s.next := by
      intro he
      rw [he] at ha
      exact absurd ha (Nat.not_succ_le_self _)
    exact (Function.update_of_ne hne _ _).trans (h.fresh a (Nat.le_of_succ_le ha))

theorem delete (h : Inv s) (id ret : ℤ) (hd : s.umsComplistDelete id = some (ret, s')) :
    Inv s' := by
  unfold State.umsComplistDelete at hd
  cases ht : s.compLists id with
  | none =>
    simp only [ht, Option.some.injEq, Prod.mk.injEq] at hd
    exact hd.2 ▸ h
  | some a =>
    obtain ⟨l, hl, rfl⟩ := h.table id a ht
    obtain ⟨hpos, href, -, -⟩ := h.resolves a l hl
    simp only [ht, hl, Option.map_some, State.putUmsComplist, if_pos href] at hd
    cases hd
    -- the list and its id go together
    refine ⟨fun b k hk => ?_, fun i b hi => ?_, fun b hb => ?_⟩
    · obtain ⟨hb, hk⟩ := KernelList.of_update_none hk
      obtain ⟨hid, href', ht', hh⟩ := h.resolves b k hk
      have hne : k.id ≠ l.id := by
        intro he
        rw [he, ht] at ht'
        exact hb (Option.some.inj ht').symm
      exact ⟨hid, href', (Function.update_of_ne hne _ _).trans ht', hh⟩
    · obtain ⟨hne, hi⟩ := KernelList.of_update_none hi
      obtain ⟨k, hk, hki⟩ := h.table i b hi
      have hb : b ≠ a := by
        intro he
        rw [he, hl] at hk
        exact hne (hki.symm.trans (congrArg IdList.id (Option.some.inj hk)).symm)
      exact ⟨k, (Function.update_of_ne hb _ _).trans hk, hki⟩
    · have hb' : b ≠ a := by
        intro he
        rw [he] at hb
        rw [h.fresh a hb] at hl
        cases hl
      exact (Function.update_of_ne hb' _ _).trans (h.fresh b hb)

theorem step (h : Inv s) (a : Act) (hok : GetsId s a) (hs : s.step a = some s') : Inv s' := by
  cases a with
  | create luck =>
    obtain ⟨⟨ret, s''⟩, hc, rfl⟩ := Option.map_eq_some_iff.mp hs
    rcases h.create_cases luck ret hok hc with ⟨-, n, hn, rfl⟩ | ⟨-, n, hpos, hfree, rfl⟩
    · exact ⟨h.resolves, h.table, fun a ha => h.fresh a (hn.trans ha)⟩
    · exact h.withList_inv n hpos hfree
  | delete id =>
    obtain ⟨⟨ret, s''⟩, hd, rfl⟩ := Option.map_eq_some_iff.mp hs
    exact h.delete id ret hd

end Inv

/-- In every run in which no create is left without an id, and for any such create that follows. -/
theorem handed_ids_resolve (s : State) (hr : Reach State.step GetsId State.init s) :
    (∀ a l, s.complist a = some l →
      s.handed a = some l.id ∧ 0 < l.id ∧ s.compLists l.id = some a ∧
        ∀ b k, s.complist b = some k → k.id = l.id → b = a) ∧
    ∀ luck ret s', GetsId s (.create luck) → s.createUmsComplist luck = some (ret, s') →
      (ret = 0 → ∃ id, s'.handed s.next = some id ∧ 0 < id ∧ s'.compLists id = some s.next ∧
        ∀ b k, s.complist b = some k → k.id ≠ id) ∧
      (ret ≠ 0 → ret < 0 ∧ s'.compLists = s.compLists) := by
  have h : Inv s := hr.invariant Inv .init fun _ a _ h hok hs => h.step a hok hs
  constructor
  · intro a l hl
    obtain ⟨hpos, -, ht, hh⟩ := h.resolves a l hl
    refine ⟨hh, hpos, ht, fun b k hk he => ?_⟩
    obtain ⟨-, -, ht', -⟩ := h.resolves b k hk
    rw [he, ht] at ht'
    exact (Option.some.inj ht').symm
  · intro luck ret s' hok hc
    rcases h.create_cases luck ret hok hc with ⟨hneg, n, -, rfl⟩ | ⟨rfl, n, hpos, hfree, rfl⟩
    · exact ⟨fun h0 => absurd h0 hneg.ne, fun _ => ⟨hneg, rfl⟩⟩
    · refine ⟨fun _ => ⟨n, Function.update_self _ _ _, hpos, Function.update_self _ _ _, ?_⟩,
        fun hne => absurd rfl hne⟩
      intro b k hk he
      obtain ⟨-, -, ht, -⟩ := h.resolves b k hk
      rw [he, hfree] at ht
      cases ht

/-- Id 2 is taken, an id allocation fails together with the copy, and id 1 is taken and deleted. -/
theorem handed_ids_resolve_two :
    ∃ s, Reach State.step GetsId State.init s ∧ (s.complist 0).isSome ∧ s.complist 2 = none ∧
      s.compLists 2 = some 0 ∧
      ∀ luck ret s', GetsId s (.create luck) → s.createUmsComplist luck = some (ret, s') →
        (ret = 0 → ∃ id, s'.handed s.next = some id ∧ 0 < id ∧ s'.compLists id = some s.next ∧
          ∀ b k, s.complist b = some k → k.id ≠ id) ∧
        (ret ≠ 0 → ret < 0 ∧ s'.compLists = s.compLists) := by
  obtain ⟨s, hr, hlist, hgone, hid⟩ := Reach.exists_of_run State.step GetsId State.init
    [.create ⟨true, .id 2, true⟩, .create ⟨true, .enomem, false⟩, .create ⟨true, .id 1, true⟩,
      .delete 1]
    (fun s => (s.complist 0).isSome ∧ s.complist 2 = none ∧ s.compLists 2 = some 0)
    (by decide +kernel)
  exact ⟨s, hr, hlist, hgone, hid, (handed_ids_resolve s hr).2⟩

/-- The table is full or has no memory, and the user is handed the error as an id. -/
theorem error_handed_as_id :
    ∃ s, Reach State.step (fun _ _ => True) State.init s ∧
      (State.init.createUmsComplist ⟨true, .enomem, true⟩).map (·.1) = some 0 ∧
      s.handed 0 = some (-enomem) ∧ (s.complist 0).isSome ∧ s.compLists (-enomem) = none := by
  obtain ⟨s, hr, h⟩ := Reach.exists_of_run State.step (fun _ _ => True) State.init
    [.create ⟨true, .enomem, true⟩]
    (fun s => s.handed 0 = some (-enomem) ∧ (s.complist 0).isSome ∧ s.compLists (-enomem) = none)
    (by decide +kernel)
  exact ⟨s, hr, by decide +kernel, h⟩

/-- The table leads to lists that are there, and a list that is there has a reference. -/
structure Counted (s : State) : Prop where
  table : ∀ id a, s.compLists id = some a → ∃ l, s.complist a = some l ∧ l.id = id
  pos : ∀ a l, s.complist a = some l → 0 < l.refcount
  fresh : ∀ a, s.next ≤ a → s.complist a = none

namespace Counted

variable {s s' : State} {a : ℕ} {l : IdList}

theorem init : Counted State.init where
  table id a h := by cases h
  pos a l h := by cases h
  fresh a h := rfl

/-- The count of a list changes, and the list is still there. -/
theorem setRefcount (h : Counted s) (hl : s.complist a = some l) (n : ℕ) (hn : 0 < n) :
    Counted { s with
      complist := Function.update s.complist a (some { l with refcount := n }) } where
  table id b hb := by
    obtain ⟨k, hk, hid⟩ := h.table id b hb
    by_cases hba : b = a
    · rw [hba, hl] at hk
      cases hk
      rw [hba]
      exact ⟨{ l with refcount := n }, Function.update_self _ _ _, hid⟩
    · exact ⟨k, (Function.update_of_ne hba _ _).trans hk, hid⟩
  pos b k hk := by
    rcases KernelList.update_some_cases hk with ⟨-, rfl⟩ | ⟨-, hk⟩
    · exact hn
    · exact h.pos b k hk
  fresh b hb := by
    have hba : b ≠ a := by
      intro he
      rw [← he, h.fresh b hb] at hl
      cases hl
    exact (Function.update_of_ne hba _ _).trans (h.fresh b hb)

/-- A list goes with its id. -/
theorem released (h : Counted s) (hl : s.complist a = some l) :
    Counted ((s.umsComplistDeinit l).freeUmsComplist a) where
  table id b hb := by
    obtain ⟨hne, hb⟩ := KernelList.of_update_none hb
    obtain ⟨k, hk, hid⟩ := h.table id b hb
    have hba : b ≠ a := by
      intro he
      rw [he, hl] at hk
      cases hk
      exact hne hid.symm
    exact ⟨k, (Function.update_of_ne hba _ _).trans hk, hid⟩
  pos b k hk := h.pos b k (KernelList.of_update_none hk).2
  fresh b hb := by
    by_cases hba : b = a
    · rw [hba]
      exact Function.update_self _ _ _
    · exact (Function.update_of_ne hba _ _).trans (h.fresh b hb)

theorem put (h : Counted s) (hl : s.complist a = some l) : Counted (s.putUmsComplist a l) := by
  unfold State.putUmsComplist
  split
  · exact h.released hl
  · rename_i hne
    have hpos := h.pos a l hl
    exact h.setRefcount hl (l.refcount - 1) (by omega)

theorem putPointer (h : Counted s) (ptr : Option ℕ) : Counted (s.putPointer ptr) := by
  unfold State.putPointer
  split
  · exact h
  · split
    · exact h
    · rename_i hl
      exact h.put hl

theorem get (h : Counted s) (a : ℕ) : Counted (s.getUmsComplist a) := by
  unfold State.getUmsComplist
  split
  · exact h
  · rename_i l hl
    exact h.setRefcount hl (l.refcount + 1) (Nat.succ_pos _)

/-- A reference that is taken and dropped. -/
theorem put_get (h : Counted s) (hl : s.complist a = some l) :
    (s.getUmsComplist a).putPointer (some a) = s := by
  have hpos := h.pos a l hl
  have hne : ¬ l.refcount + 1 = 1 := by omega
  have hself : Function.update s.complist a (some l) = s.complist := by
    rw [← hl, Function.update_eq_self]
  simp only [State.getUmsComplist, hl, State.putPointer, Function.update_self,
    State.putUmsComplist, if_neg hne, Function.update_idem, Nat.add_sub_cancel, hself]

theorem delete (h : Counted s) (id ret : ℤ) (hd : s.umsComplistDelete id = some (ret, s')) :
    Counted s' := by
  unfold State.umsComplistDelete at hd
  split at hd
  · cases hd
    exact h
  · obtain ⟨l, hl, heq⟩ := Option.map_eq_some_iff.mp hd
    cases heq
    exact h.put hl

/-- `IDR_L_ALLOC` never returns 0, and changes the table at most where it says. -/
theorem alloc_cases {t t' : ℤ → Option ℕ} {luck : IdrLuck} {retval : ℤ}
    (h : idrLAlloc t a luck = some (retval, t')) :
    retval ≠ 0 ∧ ∀ id b, t' id = some b → (id = retval ∧ b = a) ∨ t id = some b := by
  cases luck with
  | enomem =>
    cases h
    exact ⟨by decide, fun _ _ hb => Or.inr hb⟩
  | enospc =>
    cases h
    exact ⟨by decide, fun _ _ hb => Or.inr hb⟩
  | id n =>
    simp only [idrLAlloc] at h
    split at h
    · rename_i hfree
      cases h
      refine ⟨by omega, fun id b hb => ?_⟩
      rcases KernelList.update_some_cases hb with ⟨rfl, rfl⟩ | ⟨-, hb⟩
      · exact Or.inl ⟨rfl, rfl⟩
      · exact Or.inr hb
    · cases h

/-- Whatever fails, an error that is taken for an id included. -/
theorem create (h : Counted s) (luck : CreateLuck) (ret : ℤ)
    (hc : s.createUmsComplist luck = some (ret, s')) : Counted s' := by
  cases hm : luck.memory with
  | false =>
    simp only [State.createUmsComplist, hm, if_true, Option.some.injEq, Prod.mk.injEq] at hc
    exact hc.2 ▸ h
  | true =>
    cases halloc : idrLAlloc s.compLists s.next luck.idr with
    | none => simp [State.createUmsComplist, State.umsComplistInit, hm, halloc] at hc
    | some r =>
      obtain ⟨retval, t⟩ := r
      obtain ⟨hne, ht⟩ := alloc_cases halloc
      -- a list of the table is not the new one
      have hold (id : ℤ) (b : ℕ) (hb : s.compLists id = some b) (x : Option IdList) :
          ∃ l, Function.update s.complist s.next x b = some l ∧ l.id = id := by
        obtain ⟨l, hl, hid⟩ := h.table id b hb
        have hbn : b ≠ s.next := by
          intro he
          rw [he, h.fresh s.next le_rfl] at hl
          cases hl
        exact ⟨l, (Function.update_of_ne hbn _ _).trans hl, hid⟩
      have hfresh (b : ℕ) (hb : s.next + 1 ≤ b) (x : Option IdList) :
          Function.update s.complist s.next x b = none := by
        have hbn : b ≠ s.next := by omega
        exact (Function.update_of_ne hbn _ _).trans (h.fresh b (by omega))
      rw [Inv.create_of_alloc luck retval t hm hne halloc] at hc
      cases hcopy : luck.copy with
      | true =>
        rw [hcopy, if_pos rfl] at hc
        cases hc
        refine ⟨fun id b hb => ?_, fun b l hl => ?_, fun b hb => hfresh b hb _⟩
        · rcases ht id b hb with ⟨rfl, rfl⟩ | hb
          · exact ⟨⟨id, 1⟩, Function.update_self _ _ _, rfl⟩
          · exact hold id b hb _
        · rcases KernelList.update_some_cases hl with ⟨-, rfl⟩ | ⟨-, hl⟩
          · exact Nat.one_pos
          · exact h.pos b l hl
      | false =>
        rw [hcopy, if_neg Bool.false_ne_true] at hc
        cases hc
        refine ⟨fun id b hb => ?_, fun b l hl => ?_, fun b hb => hfresh b hb _⟩
        · obtain ⟨hid, hb⟩ := KernelList.of_update_none hb
          rcases ht id b hb with ⟨he, -⟩ | hb
          · exact absurd he hid
          · exact hold id b hb _
        · exact h.pos b l (KernelList.of_update_none hl).2

end Counted

end LinuxUms.Ids
