import LinuxUms.Refinement

namespace LinuxUms

open KernelList

/-- The places a worker can be seen at in a device state, by the list nodes, by what the
schedulers have been handed, and by what the threads are doing. -/
inductive Device.At (s : Device) (w : Pid) : Place Pid ListId → Prop where
  | entering (h : (s.pc w).phase (s.task w) = .entering) : s.At w .entering
  | queued (l : ListId) (ms : List Pid) (hr : Ring s.heap (.head l) (ms.map .context))
      (hm : w ∈ ms) : s.At w (.queued l)
  | batch (p c : Pid) (ms : List Pid) (hc : IsHandle c (s.batches p))
      (hr : Ring s.heap (.context c) (ms.map .context)) (hm : w ∈ ms) : s.At w (.batch p c)
  | handed (p : Pid) (h : w ∈ s.ready p ∨ w ∈ (s.batches p).flatten) : s.At w (.handed p)
  | under (p : Pid) (h : (s.pc p).phase (s.task p) = .execPre w ∨
      (s.pc p).phase (s.task p) = .execWait w) : s.At w (.under p)
  | leaving (h : (s.pc w).phase (s.task w) = .leaving) : s.At w .leaving

/-- A worker is at its place only once, and queued in its own completion list only. -/
def Device.Once (s : Device) (w : Pid) (x : Worker) : Place Pid ListId → Prop
  | .queued l => x.complist = some l ∧
      ∀ ms : List Pid, Ring s.heap (.head l) (ms.map .context) → ms.count w = 1
  | .batch _ c => ∀ ms : List Pid, Ring s.heap (.context c) (ms.map .context) → ms.count w = 1
  | .handed p => (s.ready p).count w + (s.batches p).flatten.count w = 1
  | _ => True

section Places

variable {s : Device} {σ : Handoff Pid ListId Event}

theorem Abs.queue_ring (hA : Abs s σ) (l : ListId) :
    Ring s.heap (.head l) ((σ.queue l).map .context) :=
  hA.rings.ring (.head l) _ rfl rfl

theorem Abs.rest_ring (hA : Abs s σ) (c p : Pid) (h : σ.place c = .handed p) :
    Ring s.heap (.context c) ((σ.rest c).map .context) :=
  hA.rings.ring (.context c) _ (linked_of_handed c p h) rfl

theorem map_context_injective : Function.Injective (List.map Node.context) :=
  List.map_injective_iff.mpr (fun _ _ h => Node.context.inj h)

/-- What can be seen of a worker is its place. -/
theorem Abs.at_place (hA : Abs s σ) (hI : σ.Inv) (w : Pid) (pl : Place Pid ListId)
    (h : s.At w pl) : σ.place w = pl := by
  cases h with
  | entering h => rwa [hI.entering, hA.phase w]
  | queued l ms hr hm =>
    rw [← hI.mem_queue, map_context_injective (ring_unique _ _ _ _ (hA.queue_ring l) hr)]
    exact hm
  | batch p c ms hc hr hm =>
    rw [← hA.batches] at hc
    have hcp := hI.handed_of_handle p c hc
    rw [← map_context_injective (ring_unique _ _ _ _ (hA.rest_ring c p hcp) hr)] at hm
    obtain ⟨q, hq⟩ := (hI.mem_rest c w).mp hm
    have hcq := hI.handed_of_handle q c (hI.batch w q c hq).2
    rw [hcp, Place.handed.injEq] at hcq
    rw [hq, hcq]
  | handed p h =>
    rw [← hA.ready, ← hA.batches] at h
    exact hI.handed_of_mem p w h
  | under p h =>
    rw [← hA.phase p] at h
    exact h.elim (hI.execPre p w) (hI.execWait p w)
  | leaving h => rwa [hI.leaving, hA.phase w]

/-- Every live worker can be seen at its place. -/
theorem Abs.place_at (hA : Abs s σ) (hI : σ.Inv) (w : Pid) (hw : σ.place w ≠ .off) :
    s.At w (σ.place w) := by
  cases hp : σ.place w with
  | off => exact absurd hp hw
  | entering =>
    apply Device.At.entering
    rwa [← hA.phase w, ← hI.entering]
  | queued l => exact .queued l (σ.queue l) (hA.queue_ring l) ((hI.mem_queue l w).mpr hp)
  | batch p c =>
    have hc := (hI.batch w p c hp).2
    refine .batch p c (σ.rest c) (by rwa [← hA.batches])
      (hA.rest_ring c p (hI.handed_of_handle p c hc)) ((hI.mem_rest c w).mpr ⟨p, hp⟩)
  | handed p =>
    apply Device.At.handed
    have hc := hI.count_handed p w
    rw [if_pos hp, hA.ready, hA.batches] at hc
    rw [← List.count_pos_iff, ← List.count_pos_iff]
    omega
  | under p =>
    apply Device.At.under
    rw [← hA.phase p]
    exact (hI.under w p hp).imp And.left And.left
  | leaving =>
    apply Device.At.leaving
    rwa [← hA.phase w, ← hI.leaving]

theorem Abs.once (hA : Abs s σ) (hI : σ.Inv) (w : Pid) (x : Worker) (hx : s.worker w = some x) :
    s.Once w x (σ.place w) := by
  cases hp : σ.place w with
  | queued l =>
    refine ⟨(hA.worker w x hx).own l hp, ?_⟩
    intro ms hms
    rw [← map_context_injective (ring_unique _ _ _ _ (hA.queue_ring l) hms)]
    exact List.count_eq_one_of_mem (hI.nodup_queue l) ((hI.mem_queue l w).mpr hp)
  | batch p c =>
    intro ms hms
    have hcp := hI.handed_of_handle p c (hI.batch w p c hp).2
    rw [← map_context_injective (ring_unique _ _ _ _ (hA.rest_ring c p hcp) hms)]
    exact List.count_eq_one_of_mem (hI.nodup_rest c) ((hI.mem_rest c w).mpr ⟨p, hp⟩)
  | handed p =>
    have hc := hI.count_handed p w
    rw [if_pos hp, hA.ready, hA.batches] at hc
    exact hc
  | _ => trivial

end Places

/-- In every reachable state nothing has gone through a bad pointer, every completion list is
a well-formed list of live idle workers attached to it, and every live worker is at exactly
one place, and there once. -/
theorem worker_conservation (s : Device) (hr : DeviceReachable s) :
    s.fault = false ∧
    (∀ l, ∃ ms : List Pid, Ring s.heap (.head l) (ms.map .context) ∧
      ∀ w ∈ ms, ∃ x, s.worker w = some x ∧ x.complist = some l ∧ x.context.state = .idle) ∧
    ∀ w x, s.worker w = some x →
      ∃ pl, s.At w pl ∧ (∀ pl', s.At w pl' → pl' = pl) ∧ s.Once w x pl := by
  obtain ⟨σ, hI, -, hA⟩ := reachable_handoff hr
  refine ⟨hA.fault, ?_, ?_⟩
  · intro l
    refine ⟨σ.queue l, hA.queue_ring l, ?_⟩
    intro w hw
    have hp := (hI.mem_queue l w).mp hw
    obtain ⟨x, hx⟩ := hA.worker_of_place w (by simp [hp])
    have hok := hA.worker w x hx
    exact ⟨x, hx, hok.own l hp, hok.idle (by simp [hp]) (by simp [hp]) (by simp [hp])⟩
  · intro w x hx
    have hlive : σ.place w ≠ .off := by
      rw [ne_eq, ← hA.live w, hx]
      simp
    refine ⟨σ.place w, hA.place_at hI w hlive, ?_, hA.once hI w x hx⟩
    intro pl h
    exact (hA.at_place hI w pl h).symm

/-- Two workers enter list 7; scheduler 10 drains it and executes the first, which yields. -/
def sampleRun : List DeviceAct :=
  List.flatten [[.enterScheduler 10 7], List.replicate 3 (.run 10),
    [.enterWorker 1 7 ⟨.null, .null⟩ true], List.replicate 5 (.run 1),
    [.enterWorker 2 7 ⟨.null, .null⟩ true], List.replicate 5 (.run 2),
    [.dqcontext 10 7, .run 10, .run 10, .nextContext 10 1, .run 10, .nextContext 10 2, .run 10],
    [.exec 10 1], List.replicate 7 (.run 10),
    [.run 1, .yield 1 5], List.replicate 10 (.run 1)]

theorem worker_conservation_sample :
    ∃ s, DeviceReachable s ∧ ((s.worker 1).isSome && (s.worker 2).isSome) = true ∧
      ∀ w x, s.worker w = some x →
        ∃ pl, s.At w pl ∧ (∀ pl', s.At w pl' → pl' = pl) ∧ s.Once w x pl := by
  obtain ⟨s, hr, hp⟩ := Transition.Reach.exists_of_run Device.step
    (fun s a => Protocol s a ∧ Calm s a) Device.init sampleRun
    (fun s => ((s.worker 1).isSome && (s.worker 2).isSome) = true) (by decide +kernel)
  exact ⟨s, hr, hp, (worker_conservation s hr).2.2⟩

end LinuxUms
