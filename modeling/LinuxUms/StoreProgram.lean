import Mathlib.Data.Set.Function
import Mathlib.Data.Set.Lattice
import Mathlib.Order.CompletePartialOrder

/-! Programs of single loads and stores that run side by side on one memory. Each program has a
footprint; while the footprints are disjoint, a program that has begun can be taken for finished,
or for not begun, whatever the others do. This is said by comparing the memory with a second one
in which each program is a single step. -/
namespace StoreProgram

inductive Prog (A V R : Type*) where
  | ret (r : R)
  | load (a : A) (k : V → Prog A V R)
  | store (a : A) (v : V) (k : Prog A V R)
  | fault

variable {A V R : Type*} [DecidableEq A]

namespace Prog

/-- Runs a program to its end, undisturbed. -/
def exec : Prog A V R → (A → V) → Option (R × (A → V))
  | .ret r, m => some (r, m)
  | .load a k, m => (k (m a)).exec m
  | .store a v k, m => k.exec (Function.update m a v)
  | .fault, _ => none

/-- One load or store. -/
def step : Prog A V R → (A → V) → Option (Prog A V R × (A → V))
  | .load a k, m => some (k (m a), m)
  | .store a v k, m => some (k, Function.update m a v)
  | .ret _, _ | .fault, _ => none

/-- What the next load or store touches. -/
def address : Prog A V R → Option A
  | .load a _ | .store a _ _ => some a
  | .ret _ | .fault => none

/-- The run touches the addresses in `F` only. -/
def Within (F : Set A) : Prog A V R → (A → V) → Prop
  | .load a k, m => a ∈ F ∧ (k (m a)).Within F m
  | .store a v k, m => a ∈ F ∧ k.Within F (Function.update m a v)
  | .ret _, _ | .fault, _ => True

/-- What is loaded from `G` is good, and then the program stays in `F` and keeps `G` good. -/
def Stays (good : V → Prop) (G F : Set A) : Prog A V R → Prop
  | .load a k => a ∈ G ∧ ∀ v, good v → (k v).Stays good G F
  | .store a v k => a ∈ F ∧ good v ∧ k.Stays good G F
  | .ret _ | .fault => True

end Prog

variable {F G : Set A} {p q : Prog A V R} {m n m' n' : A → V} {r : R}

theorem eqOn_update (h : Set.EqOn m n F) (a : A) (v : V) :
    Set.EqOn (Function.update m a v) (Function.update n a v) F := by
  intro b hb
  by_cases hba : b = a
  · rw [hba, Function.update_self, Function.update_self]
  · rw [Function.update_of_ne hba, Function.update_of_ne hba, h hb]

theorem within_congr (h : p.Within F m) (he : Set.EqOn m n F) : p.Within F n := by
  induction p generalizing m n with
  | ret | fault => trivial
  | load a k ih =>
    refine ⟨h.1, ?_⟩
    rw [← he h.1]
    exact ih (m a) h.2 he
  | store a v k ih => exact ⟨h.1, ih h.2 (eqOn_update he a v)⟩

/-- A program does not see what is outside its footprint. -/
theorem exec_congr (h : p.Within F m) (he : Set.EqOn m n F) (hp : p.exec m = some (r, m')) :
    ∃ n', p.exec n = some (r, n') ∧ Set.EqOn m' n' F := by
  induction p generalizing m n with
  | ret r' =>
    obtain ⟨rfl, rfl⟩ := Prod.mk.inj (Option.some.inj hp)
    exact ⟨n, rfl, he⟩
  | load a k ih =>
    rw [Prog.exec, ← he h.1]
    exact ih (m a) h.2 he hp
  | store a v k ih => exact ih h.2 (eqOn_update he a v) hp
  | fault => cases hp

/-- It leaves alone what is outside. -/
theorem exec_frame (h : p.Within F m) (hp : p.exec m = some (r, m')) : Set.EqOn m' m Fᶜ := by
  induction p generalizing m with
  | ret r' =>
    obtain ⟨-, rfl⟩ := Prod.mk.inj (Option.some.inj hp)
    exact Set.eqOn_refl m Fᶜ
  | load a k ih => exact ih (m a) h.2 hp
  | store a v k ih =>
    intro b hb
    rw [ih h.2 hp hb]
    apply Function.update_of_ne
    rintro rfl
    exact hb h.1
  | fault => cases hp

theorem exec_step {p' : Prog A V R} (h : p.step m = some (p', m')) : p'.exec m' = p.exec m := by
  cases p with
  | ret | fault => cases h
  | load a k | store a v k =>
    obtain ⟨rfl, rfl⟩ := Prod.mk.inj (Option.some.inj h)
    rfl

theorem within_step {p' : Prog A V R} (h : p.Within F m) (hs : p.step m = some (p', m')) :
    p'.Within F m' ∧ Set.EqOn m' m Fᶜ := by
  cases p with
  | ret | fault => cases hs
  | load a k =>
    obtain ⟨rfl, rfl⟩ := Prod.mk.inj (Option.some.inj hs)
    exact ⟨h.2, Set.eqOn_refl m Fᶜ⟩
  | store a v k =>
    obtain ⟨rfl, rfl⟩ := Prod.mk.inj (Option.some.inj hs)
    refine ⟨h.2, fun b hb => ?_⟩
    apply Function.update_of_ne
    rintro rfl
    exact hb h.1

theorem address_of_within {a : A} (h : p.Within F m) (ha : p.address = some a) : a ∈ F := by
  cases p with
  | ret | fault => cases ha
  | load | store =>
    obtain rfl := Option.some.inj ha
    exact h.1

theorem Prog.Stays.within {good : V → Prop} (h : p.Stays good G F) (hGF : G ⊆ F)
    (hm : ∀ a ∈ G, good (m a)) : p.Within F m := by
  induction p generalizing m with
  | ret | fault => trivial
  | load a k ih => exact ⟨hGF h.1, ih (m a) (h.2 (m a) (hm a h.1)) hm⟩
  | store a v k ih =>
    refine ⟨h.1, ih h.2.2 (fun b hb => ?_)⟩
    by_cases hba : b = a
    · rw [hba, Function.update_self]
      exact h.2.1
    · rw [Function.update_of_ne hba]
      exact hm b hb

/-- `p` on `m` and `q` on `n` touch `F` only, end with the same result, and leave the same in
`F`. -/
structure Sync (F : Set A) (p q : Prog A V R) (m n : A → V) : Prop where
  left : p.Within F m
  right : q.Within F n
  meet : ∃ r m' n', p.exec m = some (r, m') ∧ q.exec n = some (r, n') ∧ Set.EqOn m' n' F

theorem sync_ret (r : R) (m n : A → V) : Sync ∅ (.ret r) (.ret r) m n :=
  ⟨trivial, trivial, r, m, n, rfl, rfl, Set.eqOn_empty m n⟩

theorem Sync.start (h : p.Within F n) (he : Set.EqOn m n F) (hp : p.exec n = some (r, n')) :
    Sync F p p m n := by
  obtain ⟨m', hm', he'⟩ := exec_congr h he.symm hp
  exact ⟨within_congr h he.symm, h, r, m', n', hm', hp, he'.symm⟩

theorem Sync.step {p' : Prog A V R} (h : Sync F p q m n) (hs : p.step m = some (p', m')) :
    Sync F p' q m' n := by
  obtain ⟨r, m₁, n₁, hp, hq, he⟩ := h.meet
  exact ⟨(within_step h.left hs).1, h.right, r, m₁, n₁, (exec_step hs).trans hp, hq, he⟩

/-- What happens outside the footprint does not matter. -/
theorem Sync.frame (h : Sync F p q m n) (hm : Set.EqOn m m' F) (hn : Set.EqOn n n' F) :
    Sync F p q m' n' := by
  obtain ⟨r, m₁, n₁, hp, hq, he⟩ := h.meet
  obtain ⟨m₂, hp', hem⟩ := exec_congr h.left hm hp
  obtain ⟨n₂, hq', hen⟩ := exec_congr h.right hn hq
  exact ⟨within_congr h.left hm, within_congr h.right hn, r, m₂, n₂, hp', hq',
    (hem.symm.trans he).trans hen⟩

/-- The second program is run to its end. -/
theorem Sync.ahead (h : Sync F p q m n) :
    ∃ r n', q.exec n = some (r, n') ∧ Sync F p (.ret r) m n' ∧ Set.EqOn n' n Fᶜ := by
  obtain ⟨r, m₁, n₁, hp, hq, he⟩ := h.meet
  exact ⟨r, n₁, hq, ⟨h.left, trivial, r, m₁, n₁, hp, rfl, he⟩, exec_frame h.right hq⟩

/-- Both programs are at their end. -/
theorem Sync.done {r' : R} (h : Sync F (.ret r) (.ret r') m n) : r = r' ∧ Set.EqOn m n F := by
  obtain ⟨r₁, m₁, n₁, hp, hq, he⟩ := h.meet
  obtain ⟨rfl, rfl⟩ := Prod.mk.inj (Option.some.inj hp)
  obtain ⟨rfl, rfl⟩ := Prod.mk.inj (Option.some.inj hq)
  exact ⟨rfl, he⟩

theorem Sync.not_fault (h : Sync F .fault q m n) : False := by
  obtain ⟨r, m₁, n₁, hp, -, -⟩ := h.meet
  cases hp

variable {T : Type*} [DecidableEq T]

/-- The programs `p t` run on `m` and stand for `q t` on `n`. No address is in two footprints, and
the memories are equal outside all of them. -/
structure Pool (F : T → Set A) (p q : T → Prog A V R) (m n : A → V) : Prop where
  sync : ∀ t, Sync (F t) (p t) (q t) m n
  disjoint : ∀ t u, t ≠ u → Disjoint (F t) (F u)
  rest : ∀ a, (∀ t, a ∉ F t) → m a = n a

variable {S : T → Set A} {P Q : T → Prog A V R} {t : T}

omit [DecidableEq A] in
theorem eqOn_of_compl (h : Set.EqOn m' m Fᶜ) (hd : Disjoint G F) : Set.EqOn m m' G :=
  fun _ ha => (h (Set.disjoint_left.mp hd ha)).symm

/-- A load or store of one program. -/
theorem Pool.step (h : Pool S P Q m n) {p' : Prog A V R} (hs : (P t).step m = some (p', m')) :
    Pool S (Function.update P t p') Q m' n := by
  have hout := (within_step (h.sync t).left hs).2
  refine ⟨fun u => ?_, h.disjoint, fun a ha => (hout (ha t)).trans (h.rest a ha)⟩
  by_cases hu : u = t
  · subst hu
    rw [Function.update_self]
    exact (h.sync u).step hs
  · rw [Function.update_of_ne hu]
    exact (h.sync u).frame (eqOn_of_compl hout (h.disjoint u t hu)) (Set.eqOn_refl n _)

/-- A program begins, in a footprint that is free. -/
theorem Pool.start (h : Pool S P Q m n) (hfree : ∀ u, u ≠ t → Disjoint F (S u))
    (ht : S t = ∅) (hw : p.Within F n) (hp : p.exec n = some (r, n')) :
    Pool (Function.update S t F) (Function.update P t p) (Function.update Q t p) m n := by
  have he : Set.EqOn m n F := by
    intro a ha
    apply h.rest
    intro u hau
    by_cases hu : u = t
    · rw [hu, ht] at hau
      exact hau
    · exact Set.disjoint_left.mp (hfree u hu) ha hau
  refine ⟨fun u => ?_, fun u v huv => ?_, fun a ha => h.rest a (fun u => ?_)⟩
  · by_cases hu : u = t
    · subst hu
      rw [Function.update_self, Function.update_self, Function.update_self]
      exact .start hw he hp
    · rw [Function.update_of_ne hu, Function.update_of_ne hu, Function.update_of_ne hu]
      exact h.sync u
  · by_cases hu : u = t
    · subst hu
      rw [Function.update_self, Function.update_of_ne huv.symm]
      exact hfree v huv.symm
    · rw [Function.update_of_ne hu]
      by_cases hv : v = t
      · subst hv
        rw [Function.update_self]
        exact (hfree u hu).symm
      · rw [Function.update_of_ne hv]
        exact h.disjoint u v huv
  · by_cases hu : u = t
    · rw [hu, ht]
      exact Set.notMem_empty a
    · have hau := ha u
      rwa [Function.update_of_ne hu] at hau

/-- What one of the programs stands for happens in one step. -/
theorem Pool.ahead (h : Pool S P Q m n) (t : T) :
    ∃ r n', (Q t).exec n = some (r, n') ∧ Pool S P (Function.update Q t (.ret r)) m n' ∧
      Set.EqOn n' n (S t)ᶜ := by
  obtain ⟨r, n', hq, hs, hout⟩ := (h.sync t).ahead
  refine ⟨r, n', hq, ⟨fun u => ?_, h.disjoint, fun a ha => ?_⟩, hout⟩
  · by_cases hu : u = t
    · subst hu
      rw [Function.update_self]
      exact hs
    · rw [Function.update_of_ne hu]
      exact (h.sync u).frame (Set.eqOn_refl m _) (eqOn_of_compl hout (h.disjoint u t hu))
  · rw [hout (ha t)]
    exact h.rest a ha

/-- A program that is done gives its footprint back. -/
theorem Pool.finish (h : Pool S P Q m n) {r' : R} (hP : P t = .ret r) (hQ : Q t = .ret r')
    (r₀ : R) : r = r' ∧ Pool (Function.update S t ∅) (Function.update P t (.ret r₀))
      (Function.update Q t (.ret r₀)) m n := by
  have hs := h.sync t
  rw [hP, hQ] at hs
  obtain ⟨hr, he⟩ := hs.done
  refine ⟨hr, fun u => ?_, fun u v huv => ?_, fun a ha => ?_⟩
  · by_cases hu : u = t
    · subst hu
      rw [Function.update_self, Function.update_self, Function.update_self]
      exact sync_ret r₀ m n
    · rw [Function.update_of_ne hu, Function.update_of_ne hu, Function.update_of_ne hu]
      exact h.sync u
  · by_cases hu : u = t
    · rw [hu, Function.update_self]
      exact Set.empty_disjoint _
    · rw [Function.update_of_ne hu]
      by_cases hv : v = t
      · rw [hv, Function.update_self]
        exact Set.disjoint_empty _
      · rw [Function.update_of_ne hv]
        exact h.disjoint u v huv
  · by_cases hat : a ∈ S t
    · exact he hat
    · apply h.rest
      intro u
      by_cases hu : u = t
      · rw [hu]
        exact hat
      · have hau := ha u
        rwa [Function.update_of_ne hu] at hau

omit [DecidableEq T] in
/-- The memories change in the same way, outside all footprints. -/
theorem Pool.frame (h : Pool S P Q m n) (hm : ∀ t, Set.EqOn m m' (S t))
    (hn : ∀ t, Set.EqOn n n' (S t)) (he : ∀ a, (∀ t, a ∉ S t) → m' a = n' a) :
    Pool S P Q m' n' :=
  ⟨fun t => (h.sync t).frame (hm t) (hn t), h.disjoint, he⟩

end StoreProgram
