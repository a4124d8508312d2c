import LinuxUms.ApplicationProgress
import Mathlib.Algebra.BigOperators.Fin
import Mathlib.Algebra.Order.BigOperators.Group.Finset

/-! How long a run of the programs can be. Each thread has a rank, the number of steps it can make
before somebody else has to do something for it; contexts in the completion list, behind a handle
and in a run queue count for the steps that it takes to execute them. Every step lowers the sum;
a signal raises it by a constant. -/
namespace LinuxUms

open KernelList Handoff

/-- What is left to do in a call that suspends its thread or ends it. `cost` is what an insertion
in the completion list may cost the others. -/
def Pc.left (cost : ℕ) : Pc → ℕ
  | .blocked _ | .destroy => 1
  | .schedule _ => 2
  | .enterAdd _ | .yieldAdd => cost + 3
  -- each store may be a wake-up
  | .switching _ ops => cost + 3 + 4 * ops.length
  | .enterAttach _ | .yieldPost _ _ | .exitPost _ => cost + 28
  | .yieldParent _ | .exitParent => cost + 29
  | _ => cost + 30

section Ranks

variable {P : Program} {s s' : App} {q q' : Pid → Option (List ℕ)} {t : Pid} {d : Device}
  {cost : ℕ}

/-- What a step from a place inside a call takes off the rank at least. -/
def Pc.drop (cost : ℕ) : Pc → ℕ
  | .enterAdd _ | .yieldAdd => cost + 1
  | .switching _ _ => 4
  | _ => 1

end Ranks

/-- What a step of `t` from a place inside a call can give to the wait of `u`: a context in the
completion list, or a wake-up. -/
def Pc.stirs (t u : Pid) : Pc → ℕ
  | .enterAdd _ | .yieldAdd => 3
  | .switching k _ => if u = (k.contexts t).2.task then 3 else 0
  | _ => 0

theorem Device.Move.task {s s' : Device} {t : Pid} {x : Pc} (h : s.Move t x s') {u : Pid}
    (hu : u ≠ t) : s'.task u = s.task u ∨ x.stirs t u = 3 := by
  cases h with
  | switching k op ops =>
    have hsrc : (k.contexts t).1.task = t := by cases k <;> rfl
    cases op with
    | assignParent | incSwitches | setIdle | setRunning =>
      exact Or.inl (congrFun (Device.modifyContext_task s _ _) u)
    | setInterruptible =>
      refine Or.inl (Function.update_of_ne ?_ _ _)
      rw [hsrc]
      exact hu
    | wakeUp =>
      by_cases hd : u = (k.contexts t).2.task
      · exact Or.inr (if_pos hd)
      · exact Or.inl (Function.update_of_ne hd _ _)
  | dqSleep | dqWoken | evSleep | evWoken => exact Or.inl (Function.update_of_ne hu _ _)
  | _ => exact Or.inl rfl

namespace App

/-- A wait that will end by itself: a context is there, or the thread has been woken. -/
def wait (s : App) (ms : List Pid) (t : Pid) : ℕ :=
  match s.dev.pc t with
  | .dqWait _ => if ms = [] ∧ s.dev.task t = .interruptible then 0 else 3
  | _ => 0

end App

def Program.threads (P : Program) : Finset Pid :=
  (P.schedulers ++ P.workers).toFinset

/-- What an insertion in the completion list may cost: the steps for the context, and a wake-up
of each thread that waits. -/
def Program.cost (P : Program) : ℕ :=
  44 + 3 * P.threads.card

section Potential

variable {P : Program} {s s' : App} {q q' : Pid → Option (List ℕ)} {Q : List (Pid × Pid)}
  {r r' : Pid → List Pid} {ms ms' : List Pid} {t : Pid}

end Potential

/-- The potential of the first state: each scheduler gets to its first wait, and each worker is
put in the completion list and executed once for each yield and once more. -/
def Program.bound (P : Program) : ℕ :=
  ∑ t ∈ P.threads, if t ∈ P.schedulers then 16 else (P.yields t + 2) * (P.cost + 30)

section Bound

variable {P : Program} {s s' : App}

end Bound

end LinuxUms
