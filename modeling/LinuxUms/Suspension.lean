import LinuxUms.Conservation
import LinuxUms.DeviceMoves

namespace LinuxUms

open KernelList Handoff

section Waiting

variable {s : Device} {σ : Handoff Pid ListId Event}

/-- A scheduler asleep in `exec_ums_context` waits for the worker it executed. -/
theorem Abs.waiting_for (hA : Abs s σ) (hI : σ.Inv) (hH : σ.HistInv Event.context) (p w : Pid)
    (hp : σ.phase p = .execWait w) :
    owes p w s.hist = true ∧ ∃ x, s.worker w = some x ∧ x.context.parent = .context p := by
  refine ⟨hA.hist ▸ hH.wait p w hp, ?_⟩
  obtain ⟨x, hx⟩ := hA.worker_of_place w (by simp [hI.execWait p w hp])
  exact ⟨x, hx, (hA.worker w x hx).parent p hp⟩

/-- A worker that is suspended is where a scheduler will find it, or is being executed. -/
theorem Handoff.Inv.parked_place (hI : σ.Inv) (w : Pid) (hw : σ.phase w = .parked) :
    (∃ l, σ.place w = .queued l) ∨ (∃ p c, σ.place w = .batch p c) ∨ (∃ p, σ.place w = .handed p) ∨
      ∃ p, σ.place w = .under p ∧ σ.phase p = .execPre w := by
  cases hp : σ.place w with
  | queued l => exact Or.inl ⟨l, rfl⟩
  | batch p c => exact Or.inr (Or.inl ⟨p, c, rfl⟩)
  | handed p => exact Or.inr (Or.inr (Or.inl ⟨p, rfl⟩))
  | under p =>
    have hu := hI.under w p hp
    exact Or.inr (Or.inr (Or.inr ⟨p, rfl, by grind⟩))
  | off => exact absurd hw (hI.off w hp).1
  | entering => simp [(hI.entering w).mp hp] at hw
  | leaving => simp [(hI.leaving w).mp hp] at hw

/-- A scheduler that has not woken its worker yet is still to do so. -/
theorem Abs.switching_of_pre (hA : Abs s σ) (p w : Pid) (hp : σ.phase p = .execPre w) :
    ∃ ops, s.pc p = .switching (.exec w) ops ∧ .wakeUp ∈ ops := by
  have hok := hA.pc p
  rw [hA.phase p] at hp
  cases hc : s.pc p with
  | switching k ops =>
    cases k with
    | exec v =>
      rw [hc] at hp hok
      obtain rfl : v = w := Phase.execPre.inj hp
      refine ⟨ops, rfl, ?_⟩
      obtain ⟨op, ops', rfl⟩ := List.exists_cons_of_ne_nil hok.2.1
      rcases suffix_prepareSwitchContext hok.1 with ⟨rfl, rfl⟩ | ⟨rfl, rfl⟩ | ⟨rfl, rfl⟩ |
        ⟨rfl, rfl⟩ | ⟨rfl, rfl⟩ | ⟨rfl, rfl⟩ <;> simp
    | _ => simp [hc, Pc.phase] at hp
  | schedule c | blocked c =>
    cases c <;> cases hv : s.task p <;> simp [hc, hv, Pc.phase, Call.phase] at hp
  | _ => simp [hc, Pc.phase] at hp

end Waiting

/-- A scheduler blocked in `exec_ums_context` is owed a wake-up by exactly one worker, whose
parent it is; a worker blocked in `enter_ums_worker_mode` or `ums_worker_yield` is queued, in a
batch, handed to a scheduler, or about to be woken by the one executing it. -/
theorem no_lost_wakeup (s : Device) (hr : DeviceReachable s) :
    (∀ p v, s.pc p = .blocked (.exec v) → s.task p = .interruptible →
      ∃! w, owes p w s.hist = true ∧ ∃ x, s.worker w = some x ∧ x.context.parent = .context p) ∧
    (∀ w c, c = .enterWorker ∨ c = .yield → s.pc w = .blocked c → s.task w = .interruptible →
      (∃ l, s.At w (.queued l)) ∨ (∃ p c, s.At w (.batch p c)) ∨ (∃ p, s.At w (.handed p)) ∨
        ∃ p ops, s.pc p = .switching (.exec w) ops ∧ .wakeUp ∈ ops) := by
  obtain ⟨σ, hI, hH, hA⟩ := reachable_handoff hr
  constructor
  · intro p v hpc htask
    have hp : σ.phase p = .execWait v := by
      rw [hA.phase p, hpc, htask]
      rfl
    refine ⟨v, hA.waiting_for hI hH p v hp, ?_⟩
    intro w hw
    have hj : AllJustified s.hist := hA.hist ▸ hH.justified
    have hv := wokenBy_of_owes p v s.hist hj (hA.waiting_for hI hH p v hp).1
    rw [wokenBy_of_owes p w s.hist hj hw.1, Option.some.injEq] at hv
    exact hv
  · intro w c hc hpc htask
    have hw : σ.phase w = .parked := by
      rw [hA.phase w, hpc, htask]
      rcases hc with rfl | rfl <;> rfl
    have hat : σ.place w ≠ .off := fun h => (hI.off w h).1 hw
    have hat := hA.place_at hI w hat
    rcases hI.parked_place w hw with ⟨l, hl⟩ | ⟨p, c, hl⟩ | ⟨p, hl⟩ | ⟨p, -, hp⟩
    · exact Or.inl ⟨l, hl ▸ hat⟩
    · exact Or.inr (Or.inl ⟨p, c, hl ▸ hat⟩)
    · exact Or.inr (Or.inr (Or.inl ⟨p, hl ▸ hat⟩))
    · exact Or.inr (Or.inr (Or.inr ⟨p, hA.switching_of_pre p w hp⟩))

/-- In the sample run before worker 1 yields, scheduler 10 and worker 2 are blocked. -/
theorem no_lost_wakeup_sample :
    ∃ s, DeviceReachable s ∧ s.pc 10 = .blocked (.exec 1) ∧ s.task 10 = .interruptible ∧
      ∃! w, owes 10 w s.hist = true ∧
        ∃ x, s.worker w = some x ∧ x.context.parent = .context 10 := by
  obtain ⟨s, hr, hp⟩ := Transition.Reach.exists_of_run Device.step
    (fun s a => Protocol s a ∧ Calm s a) Device.init (sampleRun.take 31)
    (fun s => s.pc 10 = .blocked (.exec 1) ∧ s.task 10 = .interruptible)
    (by decide +kernel)
  obtain ⟨hpc, htask⟩ := hp
  exact ⟨s, hr, hpc, htask, (no_lost_wakeup s hr).1 10 1 hpc htask⟩

/-- The events queued to a scheduler, those it has taken and those still in `event_q`, are its
startup event and one event for each execution by it, in the order of the executions. Only the
last may be missing, while the worker has posted none since; and a worker posts to the scheduler
that executed it last. -/
theorem events_answer_execs (s : Device) (hr : DeviceReachable s) (p : Pid) :
    (∃ taken, taken.length = deliveries p s.hist + (s.pc p).inHand ∧
      eventsTo p s.hist = taken ++ s.eventQ p ∧
      ((taken ++ s.eventQ p = [] ∧ execsBy p s.hist = []) ∨
        ∃ es, taken ++ s.eventQ p = .schedulerStartup :: es ∧
          es.map Event.context ++ (outstanding p s.hist).toList.map some =
            (execsBy p s.hist).map some)) ∧
    ∀ h₁ h₂ w e, s.hist = h₁ ++ .post p w e :: h₂ → lastExecutor w h₂ = some p := by
  obtain ⟨σ, hI, hH, hA⟩ := reachable_handoff hr
  obtain ⟨taken, htaken, hlen⟩ := (Device.delivered_of_reachable hr).taken p
  refine ⟨⟨taken, hlen, htaken, ?_⟩, ?_⟩
  · rw [← htaken, ← hA.hist]
    cases hst : σ.started p with
    | false => exact Or.inl ⟨(hH.fresh p hst).1, (hH.fresh p hst).2.1⟩
    | true =>
      obtain ⟨e, es, hev, he, hes⟩ := hH.events p hst
      have hse : e = .schedulerStartup := by
        cases e <;> simp [Event.context] at he ⊢
      exact Or.inr ⟨es, hse ▸ hev, hes⟩
  · intro h₁ h₂ w e hh
    have hj : AllJustified s.hist := hA.hist ▸ hH.justified
    exact justified_of_append h₁ h₂ _ (hh ▸ hj)

/-- In the sample run scheduler 10 has the event of worker 1 in its queue, behind the startup
event that it has not taken. -/
theorem events_answer_execs_sample :
    ∃ s, DeviceReachable s ∧ execsBy 10 s.hist = [1] ∧
      s.eventQ 10 = [.schedulerStartup, .threadYield 1 5] ∧
      ∃ taken, taken.length = deliveries 10 s.hist + (s.pc 10).inHand ∧
        eventsTo 10 s.hist = taken ++ s.eventQ 10 ∧
        ((taken ++ s.eventQ 10 = [] ∧ execsBy 10 s.hist = []) ∨
          ∃ es, taken ++ s.eventQ 10 = .schedulerStartup :: es ∧
            es.map Event.context ++ (outstanding 10 s.hist).toList.map some =
              (execsBy 10 s.hist).map some) := by
  obtain ⟨s, hr, hp⟩ := Transition.Reach.exists_of_run Device.step
    (fun s a => Protocol s a ∧ Calm s a) Device.init sampleRun
    (fun s => execsBy 10 s.hist = [1] ∧ s.eventQ 10 = [.schedulerStartup, .threadYield 1 5])
    (by decide +kernel)
  exact ⟨s, hr, hp.1, hp.2, (events_answer_execs s hr 10).1⟩

/-- A suspension ends only by a switch, and so a worker in user code is in no completion list,
has a parent, and does not run beside the scheduler that executed it. -/
structure SuspensionEndsBySwitch (s : Device) : Prop where
  enter : ∀ h₁ h₂ w, s.hist = h₁ ++ .ret w .enterWorker .ok :: h₂ → wokenSinceQueued w h₂ = true
  yield : ∀ h₁ h₂ w, s.hist = h₁ ++ .ret w .yield .ok :: h₂ → wokenSinceQueued w h₂ = true
  exec : ∀ h₁ h₂ p w, s.hist = h₁ ++ .ret p (.exec w) .ok :: h₂ → answered p w h₂ = true
  unlinked : ∀ w x, s.worker w = some x → s.pc w = .user →
    (∀ l, ∃ ms : List Pid, Ring s.heap (.head l) (ms.map .context) ∧ w ∉ ms) ∧
      ∃ p, x.context.parent = .context p
  apart : ∀ w x p, s.worker w = some x → s.pc w = .user → lastExecutor w s.hist = some p →
    s.pc p ≠ .user

theorem suspension_ends_by_switch (s : Device) (hr : DeviceReachable s) :
    SuspensionEndsBySwitch s := by
  obtain ⟨σ, hI, hH, hA⟩ := reachable_handoff hr
  have hj : AllJustified s.hist := hA.hist ▸ hH.justified
  -- a live worker in user code runs under the scheduler that its parent pointer names
  have hrun (w : Pid) (x : Worker) (hx : s.worker w = some x) (hpc : s.pc w = .user) :
      ∃ p, σ.place w = .under p ∧ σ.phase p = .execWait w ∧ x.context.parent = .context p :=
    hA.parent_under hI w x hx (hA.active hpc (fun _ => rfl))
  constructor
  · intro h₁ h₂ w hh
    exact justified_of_append h₁ h₂ _ (hh ▸ hj)
  · intro h₁ h₂ w hh
    exact justified_of_append h₁ h₂ _ (hh ▸ hj)
  · intro h₁ h₂ p w hh
    exact justified_of_append h₁ h₂ _ (hh ▸ hj)
  · intro w x hx hpc
    obtain ⟨p, hp, -, hpar⟩ := hrun w x hx hpc
    refine ⟨?_, p, hpar⟩
    intro l
    refine ⟨σ.queue l, hA.queue_ring l, ?_⟩
    rw [hI.mem_queue, hp]
    simp
  · intro w x p hx hpc hlast hup
    obtain ⟨q, hq, hwait, -⟩ := hrun w x hx hpc
    rw [← hA.hist, hH.under w q hq, Option.some.injEq] at hlast
    subst hlast
    rw [hA.phase q, hup] at hwait
    cases hwait

theorem suspension_ends_by_switch_sample :
    ∃ s, DeviceReachable s ∧ s.pc 1 = .user ∧ (s.worker 1).isSome ∧ SuspensionEndsBySwitch s := by
  obtain ⟨s, hr, hp⟩ := Transition.Reach.exists_of_run Device.step
    (fun s a => Protocol s a ∧ Calm s a) Device.init (sampleRun.take 32)
    (fun s => s.pc 1 = .user ∧ (s.worker 1).isSome) (by decide +kernel)
  obtain ⟨hpc, hw⟩ := hp
  exact ⟨s, hr, hpc, hw, suspension_ends_by_switch s hr⟩

/-- A signal that reaches a worker suspended in `enter_ums_worker_mode` makes the call return
although nobody has executed the worker. -/
theorem signal_ends_suspension :
    ∃ s, Transition.Reach Device.step Protocol Device.init s ∧ ¬ SuspensionEndsBySwitch s := by
  obtain ⟨s, hr, hp⟩ := Transition.Reach.exists_of_run Device.step Protocol Device.init
    ([.enterWorker 1 7 ⟨.null, .null⟩ true] ++ List.replicate 5 (.run 1) ++ [.signal 1, .run 1])
    (fun s => s.hist = [.ret 1 .enterWorker .ok, .queued 1 7]) (by decide +kernel)
  refine ⟨s, hr, ?_⟩
  intro h
  have hw := h.enter [] [.queued 1 7] 1 (hp)
  simp [wokenSinceQueued] at hw

end LinuxUms
