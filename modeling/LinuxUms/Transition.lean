import Mathlib.Data.Nat.Notation
import Mathlib.Tactic.TypeStar

/-! Transition systems given by a partial step function. `ok` is what a run assumes of each
of its steps, as a condition on the action and the state before it. -/
namespace Transition

variable {S A : Type*}

/-- The states reached from `init` by steps that `ok` admits. -/
inductive Reach (step : S → A → Option S) (ok : S → A → Prop) (init : S) : S → Prop where
  | refl : Reach step ok init init
  | tail {s s' : S} (a : A) (hr : Reach step ok init s) (ha : ok s a) (hs : step s a = some s') :
      Reach step ok init s'

/-- What holds at the start and survives every admitted step holds throughout. -/
theorem Reach.invariant {step : S → A → Option S} {ok : S → A → Prop} {init s : S}
    (I : S → Prop) (h0 : I init)
    (hstep : ∀ s a s', I s → ok s a → step s a = some s' → I s')
    (hr : Reach step ok init s) : I s := by
  induction hr with
  | refl => exact h0
  | tail a _ ha hs ih => exact hstep _ a _ ih ha hs

theorem Reach.mono {step : S → A → Option S} {ok ok' : S → A → Prop} {init s : S}
    (h : ∀ s a, ok s a → ok' s a) (hr : Reach step ok init s) : Reach step ok' init s :=
  hr.invariant _ .refl fun s a _ hr' ha hs => .tail a hr' (h s a ha) hs

/-- If `P` is lost for good in the steps that `q` does not admit and kept in the others, then it
holds exactly after the runs that `q` admits. -/
theorem Reach.iff_restricted {step : S → A → Option S} {ok : S → A → Prop} {init s : S}
    (I P : S → Prop) (q : S → A → Prop) (hI : I init) (hP : P init)
    (hstep : ∀ s a s', I s → ok s a → step s a = some s' → I s' ∧ (P s' ↔ P s ∧ q s a))
    (hr : Reach step ok init s) : P s ↔ Reach step (fun s a => ok s a ∧ q s a) init s := by
  constructor
  · induction hr with
    | refl => exact fun _ => .refl
    | tail a hr ha hs ih =>
      intro hp
      have hinv := hr.invariant I hI fun _ a _ h ha hs => (hstep _ a _ h ha hs).1
      obtain ⟨hp, hq⟩ := (hstep _ a _ hinv ha hs).2.mp hp
      exact .tail a (ih hp) ⟨ha, hq⟩ hs
  · intro hr
    have hboth := hr.invariant (fun s => I s ∧ P s) ⟨hI, hP⟩ fun _ a _ h ha hs =>
      ⟨(hstep _ a _ h.1 ha.1 hs).1, (hstep _ a _ h.1 ha.1 hs).2.mpr ⟨h.2, ha.2⟩⟩
    exact hboth.2

/-- Runs a list of actions, checking the assumption before each. -/
def run (step : S → A → Option S) (ok : S → A → Prop) [∀ s a, Decidable (ok s a)] (s : S) :
    List A → Option S
  | [] => some s
  | a :: as => if ok s a then (step s a).bind (fun s' => run step ok s' as) else none

theorem Reach.of_run {step : S → A → Option S} {ok : S → A → Prop} [∀ s a, Decidable (ok s a)]
    {init s t : S} (as : List A) (hr : Reach step ok init s) (h : run step ok s as = some t) :
    Reach step ok init t := by
  induction as generalizing s with
  | nil =>
    rw [run, Option.some.injEq] at h
    exact h ▸ hr
  | cons a as ih =>
    rw [run] at h
    split at h
    · rename_i ha
      obtain ⟨s', hs, hrun⟩ := Option.bind_eq_some_iff.mp h
      exact ih (.tail a hr ha hs) hrun
    · cases h

/-- A run that ends in a state with a decidable property reaches such a state. -/
theorem Reach.exists_of_run (step : S → A → Option S) (ok : S → A → Prop)
    [∀ s a, Decidable (ok s a)] (init : S) (as : List A) (P : S → Prop) [DecidablePred P]
    (h : (run step ok init as).map (fun s => decide (P s)) = some true) :
    ∃ s, Reach step ok init s ∧ P s := by
  obtain ⟨s, hs, hp⟩ := Option.map_eq_some_iff.mp h
  exact ⟨s, .of_run as .refl hs, of_decide_eq_true hp⟩

section Flow

variable {O L : Type*} [DecidableEq L] (before after : O → L)

/-- The level at the end of the code, if each operation is met at its level. -/
def flow : L → List O → Option L
  | l, [] => some l
  | l, o :: os => if l = before o then flow (after o) os else none

variable {before after}

theorem flow_cons {l m : L} {o : O} {os : List O} :
    flow before after l (o :: os) = some m ↔
      l = before o ∧ flow before after (after o) os = some m := by
  simp [flow]

theorem flow_append {l m n : L} {xs ys : List O} (hx : flow before after l xs = some m)
    (hy : flow before after m ys = some n) : flow before after l (xs ++ ys) = some n := by
  induction xs generalizing l with
  | nil => exact Option.some.inj hx ▸ hy
  | cons o os ih =>
    obtain ⟨hl, hos⟩ := flow_cons.mp hx
    exact flow_cons.mpr ⟨hl, ih hos⟩

end Flow

end Transition
