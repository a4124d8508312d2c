import Mathlib.Data.List.Count
import Mathlib.Data.List.Nodup
import Mathlib.Data.List.Perm.Basic
import Mathlib.Logic.Function.Basic

/-! Memory that is handed out in numbered pieces and never reused, so that every piece can be
accounted for: `frees a` says how often piece `a` was given back. Whoever has a list of the pieces
that somebody still holds can tell that none was lost and none was given back twice. -/

structure Slab where
  next : ℕ
  frees : ℕ → ℕ
  -- something was used that is not there
  bad : Bool

namespace Slab

def empty : Slab := ⟨0, fun _ => 0, false⟩

/-- The new piece is the one with number `m.next`. -/
def alloc (m : Slab) : Slab := { m with next := m.next + 1 }

def free (m : Slab) (a : ℕ) : Slab := { m with frees := Function.update m.frees a (m.frees a + 1) }

/-- A use through a pointer that leads to `a`, or nowhere. -/
def use (m : Slab) : Option ℕ → Slab
  | some a => { m with bad := m.bad || !(decide (a < m.next) && decide (m.frees a = 0)) }
  | none => { m with bad := true }

@[simp]
theorem alloc_next (m : Slab) : m.alloc.next = m.next + 1 := rfl

@[simp]
theorem alloc_bad (m : Slab) : m.alloc.bad = m.bad := rfl

@[simp]
theorem free_next (m : Slab) (a : ℕ) : (m.free a).next = m.next := rfl

@[simp]
theorem free_bad (m : Slab) (a : ℕ) : (m.free a).bad = m.bad := rfl

@[simp]
theorem foldl_free_next (as : List ℕ) (m : Slab) : (as.foldl free m).next = m.next := by
  induction as generalizing m with
  | nil => rfl
  | cons a as ih => exact ih (m.free a)

@[simp]
theorem foldl_free_bad (as : List ℕ) (m : Slab) : (as.foldl free m).bad = m.bad := by
  induction as generalizing m with
  | nil => rfl
  | cons a as ih => exact ih (m.free a)

/-- Every piece that was handed out is held once or was given back once. -/
structure Balanced (m : Slab) (held : List ℕ) : Prop where
  once : ∀ a, a < m.next → m.frees a + held.count a = 1
  none : ∀ a, m.next ≤ a → m.frees a + held.count a = 0

variable {m : Slab} {held : List ℕ} {a : ℕ}

theorem balanced_empty : empty.Balanced [] := ⟨fun a ha => absurd ha a.not_lt_zero, fun _ _ => rfl⟩

namespace Balanced

theorem perm (h : m.Balanced held) {held' : List ℕ} (hp : held.Perm held') :
    m.Balanced held' := by
  constructor
  · intro a ha
    rw [← hp.count_eq a]
    exact h.once a ha
  · intro a ha
    rw [← hp.count_eq a]
    exact h.none a ha

theorem alloc (h : m.Balanced held) : m.alloc.Balanced (m.next :: held) := by
  constructor
  · intro a ha
    by_cases he : m.next = a
    · have hnew := h.none a (Nat.le_of_eq he)
      rw [he, List.count_cons_self]
      exact congrArg (· + 1) hnew
    · rw [List.count_cons_of_ne he]
      exact h.once a (by simp only [alloc_next] at ha; omega)
  · intro a ha
    simp only [alloc_next] at ha
    rw [List.count_cons_of_ne (by omega)]
    exact h.none a (by omega)

theorem free (h : m.Balanced (a :: held)) : (m.free a).Balanced held := by
  have hsame (b : ℕ) : (m.free a).frees b + held.count b = m.frees b + (a :: held).count b := by
    by_cases he : a = b
    · subst he
      simp only [Slab.free, Function.update_self, List.count_cons_self]
      omega
    · simp only [Slab.free, Function.update_of_ne (Ne.symm he), List.count_cons_of_ne he]
  exact ⟨fun b hb => (hsame b).trans (h.once b hb), fun b hb => (hsame b).trans (h.none b hb)⟩

theorem frees (as : List ℕ) (h : m.Balanced (as ++ held)) :
    (as.foldl Slab.free m).Balanced held := by
  induction as generalizing m with
  | nil => exact h
  | cons a as ih => exact ih h.free

/-- What is held has not been given back. -/
theorem live (h : m.Balanced held) (ha : a ∈ held) : a < m.next ∧ m.frees a = 0 := by
  have hpos := List.count_pos_iff.mpr ha
  have hlt : a < m.next := by
    by_contra hge
    have := h.none a (by omega)
    omega
  have := h.once a hlt
  exact ⟨hlt, by omega⟩

theorem use (h : m.Balanced held) (ha : a ∈ held) : m.use (some a) = m := by
  obtain ⟨hlt, hz⟩ := h.live ha
  simp [Slab.use, hlt, hz]

/-- A sequence of uses of things that are there. -/
theorem uses {α : Type*} (f : α → Option ℕ) (os : List α) (h : m.Balanced held)
    (hos : ∀ o ∈ os, ∃ a ∈ held, f o = some a) :
    os.foldl (fun m o => m.use (f o)) m = m := by
  induction os with
  | nil => rfl
  | cons o os ih =>
    obtain ⟨a, ha, hf⟩ := hos o List.mem_cons_self
    simp only [List.foldl_cons, hf, h.use ha]
    exact ih (fun o ho => hos o (List.mem_cons_of_mem _ ho))

end Balanced

end Slab

namespace Keyed

variable {K V : Type*} [DecidableEq K]

def get (r : List (K × V)) (k : K) : Option V := (r.find? (fun x => x.1 = k)).map Prod.snd

def remove (r : List (K × V)) (k : K) : List (K × V) := r.filter (fun x => x.1 ≠ k)

def keys (r : List (K × V)) : List K := r.map Prod.fst

variable {r : List (K × V)} {k : K}

omit [DecidableEq K] in
@[simp]
theorem keys_cons (x : K × V) (r : List (K × V)) : keys (x :: r) = x.1 :: keys r := rfl

omit [DecidableEq K] in
theorem eq_nil_of_keys (h : ∀ k, k ∉ keys r) : r = [] :=
  List.map_eq_nil_iff.mp (List.eq_nil_iff_forall_not_mem.mpr h)

theorem exists_get (hk : k ∈ keys r) : ∃ v, get r k = some v ∧ (k, v) ∈ r := by
  obtain ⟨x, hx, rfl⟩ := List.mem_map.mp hk
  obtain ⟨y, hy⟩ := Option.isSome_iff_exists.mp
    (List.find?_isSome.mpr ⟨x, hx, by simp⟩ : (r.find? (fun y => y.1 = x.1)).isSome = true)
  have hkey : y.1 = x.1 := by simpa using List.find?_some hy
  exact ⟨y.2, by simp [get, hy], hkey ▸ List.mem_of_find?_eq_some hy⟩

theorem get_cons (x : K × V) (j : K) :
    get (x :: r) j = if x.1 = j then some x.2 else get r j := by
  unfold get
  split
  · rename_i h
    rw [List.find?_cons_of_pos (by simpa using h)]
    rfl
  · rename_i h
    rw [List.find?_cons_of_neg (by simpa using h)]

theorem get_remove (j : K) : get (remove r k) j = if j = k then none else get r j := by
  induction r with
  | nil => simp [remove, get]
  | cons x r ih =>
    by_cases hx : x.1 = k
    · have hdrop : remove (x :: r) k = remove r k := List.filter_cons_of_neg (by simpa using hx)
      rw [hdrop, ih, get_cons]
      by_cases hj : j = k
      · simp [hj]
      · simp [hj, hx, Ne.symm hj]
    · have hkeep : remove (x :: r) k = x :: remove r k :=
        List.filter_cons_of_pos (by simpa using hx)
      rw [hkeep, get_cons, ih, get_cons]
      by_cases hj : x.1 = j
      · subst hj
        simp [hx]
      · simp [hj]

theorem mem_keys_remove (j : K) : j ∈ keys (remove r k) ↔ j ≠ k ∧ j ∈ keys r := by
  simp only [keys, remove, List.mem_map, List.mem_filter, decide_eq_true_eq]
  constructor
  · rintro ⟨x, ⟨hx, hne⟩, rfl⟩
    exact ⟨hne, x, hx, rfl⟩
  · rintro ⟨hne, x, hx, rfl⟩
    exact ⟨x, ⟨hx, hne⟩, rfl⟩

theorem nodup_remove (hnd : (keys r).Nodup) (k : K) : (keys (remove r k)).Nodup :=
  hnd.sublist (List.filter_sublist.map _)

/-- An entry that is taken out is the one that was found. -/
theorem perm_remove (hnd : (keys r).Nodup) {v : V} (hv : get r k = some v) :
    r.Perm ((k, v) :: remove r k) := by
  induction r with
  | nil => simp [get] at hv
  | cons x r ih =>
    obtain ⟨hx, hnd⟩ := List.nodup_cons.mp hnd
    by_cases hk : x.1 = k
    · obtain rfl : x = (k, v) := by
        simp only [get, List.find?_cons_of_pos (p := fun x : K × V => x.1 = k) (by simpa using hk),
          Option.map_some, Option.some.injEq] at hv
        exact Prod.ext hk hv
      have hrest : remove r k = r := by
        refine List.filter_eq_self.mpr fun y hy => ?_
        have hne : y.1 ≠ k := fun he => hx (List.mem_map.mpr ⟨y, hy, he⟩)
        simpa using hne
      have hself : remove ((k, v) :: r) k = r := by
        rw [← hrest]
        simp [remove]
      rw [hself]
    · have hv' : get r k = some v := by
        rwa [get, List.find?_cons_of_neg (by simpa using hk)] at hv
      have hcons : remove (x :: r) k = x :: remove r k :=
        List.filter_cons_of_pos (by simpa using hk)
      rw [hcons]
      exact ((ih hnd hv').cons x).trans (List.Perm.swap _ _ _)

end Keyed
