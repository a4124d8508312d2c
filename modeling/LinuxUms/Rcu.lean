import Mathlib.Data.List.Basic
import Mathlib.Logic.Function.Basic

/-! Read-copy-update. Threads read inside sections, and a callback that is registered for an object
runs when all sections that were open at that time have come to an end. A thread that sleeps inside
a section ends it as far as callbacks can tell. -/

/-- `readers` are the threads with an open section, and `waits o` are those of them that the
callback for `o` still waits for. -/
structure Rcu (T O : Type*) where
  readers : List T
  waits : O → Option (List T)

namespace Rcu

variable {T O : Type*}

def init : Rcu T O := ⟨[], fun _ => none⟩

def lock (r : Rcu T O) (t : T) : Rcu T O := { r with readers := t :: r.readers }

/-- The section of `t` ends. -/
def leave [DecidableEq T] (r : Rcu T O) (t : T) : Rcu T O where
  readers := r.readers.filter (· ≠ t)
  waits o := (r.waits o).map (List.filter (· ≠ t))

def callRcu [DecidableEq O] (r : Rcu T O) (o : O) : Rcu T O :=
  { r with waits := Function.update r.waits o (some r.readers) }

/-- The callback for `o` can run. -/
def Elapsed (r : Rcu T O) (o : O) : Prop := r.waits o = some []

instance [DecidableEq T] (r : Rcu T O) (o : O) : Decidable (r.Elapsed o) :=
  inferInstanceAs (Decidable (r.waits o = some []))

/-- The section of `t` keeps the callback for `o` from running. -/
structure Shields (r : Rcu T O) (t : T) (o : O) : Prop where
  reading : t ∈ r.readers
  waiting : ∀ ws, r.waits o = some ws → t ∈ ws

variable {r : Rcu T O} {t u : T} {o p : O}

@[simp]
theorem lock_waits : (r.lock t).waits = r.waits := rfl

theorem leave_waits_none [DecidableEq T] : (r.leave t).waits o = none ↔ r.waits o = none := by
  simp [leave]

theorem callRcu_waits_of_ne [DecidableEq O] (h : p ≠ o) : (r.callRcu o).waits p = r.waits p :=
  Function.update_of_ne h _ _

theorem callRcu_waits_self [DecidableEq O] : (r.callRcu o).waits o = some r.readers :=
  Function.update_self ..

/-- What is found inside a section before its callback is registered is safe in the section. -/
theorem Shields.of_found (ht : t ∈ r.readers) (ho : r.waits o = none) : r.Shields t o := by
  refine ⟨ht, fun ws hws => ?_⟩
  rw [ho] at hws
  cases hws

theorem Shields.not_elapsed (h : r.Shields t o) : ¬ r.Elapsed o := by
  intro he
  exact List.not_mem_nil (h.waiting [] he)

theorem Shields.lock (h : r.Shields t o) (u : T) : (r.lock u).Shields t o :=
  ⟨List.mem_cons_of_mem u h.reading, h.waiting⟩

theorem Shields.leave [DecidableEq T] (h : r.Shields t o) (hne : t ≠ u) :
    (r.leave u).Shields t o := by
  refine ⟨List.mem_filter.mpr ⟨h.reading, by simpa using hne⟩, fun ws hws => ?_⟩
  obtain ⟨vs, hvs, rfl⟩ := Option.map_eq_some_iff.mp hws
  exact List.mem_filter.mpr ⟨h.waiting vs hvs, by simpa using hne⟩

/-- A callback that is registered later waits for the section. -/
theorem Shields.callRcu [DecidableEq O] (h : r.Shields t o) (p : O) :
    (r.callRcu p).Shields t o := by
  refine ⟨h.reading, fun ws hws => ?_⟩
  by_cases hop : o = p
  · subst hop
    rw [callRcu_waits_self, Option.some.injEq] at hws
    exact hws ▸ h.reading
  · rw [callRcu_waits_of_ne hop] at hws
    exact h.waiting ws hws

end Rcu
