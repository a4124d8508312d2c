import LinuxUms.ContextRecords

/-! The member `switches` of a context, which the files `info` show: every switch is counted once,
by the thread that makes it. The counter has 32 bits. -/
namespace LinuxUms

open Handoff

/-- A switch that is not counted yet. -/
def Pc.due (r : Role) : Pc → BitVec 32
  | .switching k ops => if k.role = some r ∧ .incSwitches ∈ ops then 1 else 0
  | _ => 0

/-- How often a worker has yielded since it entered. -/
def yieldsOf (w : Pid) : List (Obs Pid ListId Event) → ℕ
  | [] => 0
  | .post _ v (.threadYield _ _) :: h => if v = w then yieldsOf w h + 1 else yieldsOf w h
  | .ret v .exit .ok :: h => if v = w then 0 else yieldsOf w h
  | _ :: h => yieldsOf w h

/-- How often a context has given the processor to another one. -/
def ContextRef.switchesIn (h : List (Obs Pid ListId Event)) : ContextRef → ℕ
  | .worker w => yieldsOf w h
  | .scheduler p => (execsBy p h).length

namespace Device

variable {s s' : Device} {t : Pid} {σ : Handoff Pid ListId Event}

/-- What the record of a context counts. -/
def switches (s : Device) (c : ContextRef) : BitVec 32 :=
  (s.context c).elim 0 UmsContext.switches

/-- Every switch is counted once, by the thread that makes it. -/
def SwitchesCounted (s : Device) : Prop :=
  ∀ c, s.switches c + (s.pc c.task).due c.role = BitVec.ofNat 32 (c.switchesIn s.hist)

theorem switches_congr {r : ContextRef} (h : s'.context r = s.context r) :
    s'.switches r = s.switches r := by
  rw [switches, switches, h]

/-- Thread `t` goes on to `c`, and makes or counts switches as the history says. -/
theorem SwitchesCounted.go (h : SwitchesCounted s) {c : Pc}
    (hpc : s'.pc = Function.update s.pc t c)
    (hother : ∀ r, r.task ≠ t →
      s'.switches r = s.switches r ∧ r.switchesIn s'.hist = r.switchesIn s.hist)
    (hown : ∀ r, r.task = t →
      s.switches r + (s.pc t).due r.role = BitVec.ofNat 32 (r.switchesIn s.hist) →
      s'.switches r + c.due r.role = BitVec.ofNat 32 (r.switchesIn s'.hist)) :
    SwitchesCounted s' := by
  intro r
  rw [hpc]
  by_cases hr : r.task = t
  · rw [hr, Function.update_self]
    apply hown r hr
    rw [← hr]
    exact h r
  · rw [Function.update_of_ne hr, (hother r hr).1, (hother r hr).2]
    exact h r

theorem SwitchesCounted.keep (h : SwitchesCounted s) {c : Pc}
    (hpc : s'.pc = Function.update s.pc t c) (hctx : ∀ r, s'.switches r = s.switches r)
    (hhist : ∀ r : ContextRef, r.switchesIn s'.hist = r.switchesIn s.hist)
    (hdue : ∀ r, c.due r = (s.pc t).due r) : SwitchesCounted s' := by
  refine h.go hpc (fun r _ => ⟨hctx r, hhist r⟩) (fun r _ hr => ?_)
  rw [hctx, hhist, hdue]
  exact hr

/-- No switch is made by the other observations. -/
theorem switchesIn_ret {a : Call Pid} {v : Result} (ha : a ≠ .exit ∨ v ≠ .ok)
    (h : List (Obs Pid ListId Event)) (r : ContextRef) :
    r.switchesIn (.ret t a v :: h) = r.switchesIn h := by
  cases r with
  | scheduler p => rfl
  | worker w =>
    cases a with
    | exit =>
      cases v with
      | ok => exact absurd rfl (ha.resolve_left (fun hne => hne rfl))
      | _ => rfl
    | _ => rfl

theorem switchesIn_post (p : Pid) (args : UserPtr) (h : List (Obs Pid ListId Event))
    (r : ContextRef) : r.switchesIn (.post p t (.threadYield t args) :: h) =
      r.switchesIn h + if r = .worker t then 1 else 0 := by
  cases r with
  | scheduler q => rfl
  | worker w =>
    show (if t = w then _ else _) = _
    by_cases hw : t = w
    · rw [if_pos hw, hw, if_pos rfl]
      rfl
    · rw [if_neg hw, if_neg (by simpa using Ne.symm hw)]
      rfl

theorem switchesIn_exec (w : Pid) (h : List (Obs Pid ListId Event)) (r : ContextRef) :
    r.switchesIn (.exec t w :: h) = r.switchesIn h + if r = .scheduler t then 1 else 0 := by
  cases r with
  | worker q => rfl
  | scheduler p =>
    show (if t = p then _ else _ : List Pid).length = _
    by_cases hp : t = p
    · rw [if_pos hp, hp, if_pos rfl, List.length_append]
      rfl
    · rw [if_neg hp, if_neg (by simpa using Ne.symm hp)]
      rfl

theorem switchesIn_stepSwitch (s : Device) (t : Pid) (k : Switching) (op : SwitchOp)
    (ops : List SwitchOp) (r : ContextRef) :
    r.switchesIn (s.stepSwitch t k op ops).hist = r.switchesIn s.hist := by
  show r.switchesIn (if op = .wakeUp then _ else _) = _
  rw [(beside_switchOp s _ _ op).hist]
  split
  · cases k <;> cases r <;> rfl
  · rfl

theorem context_of_modifyContext {c : ContextRef} {f : UmsContext → UmsContext}
    (hf : (s.modifyContext c f).fault = false) : ∃ x, s.context c = some x := by
  cases c with
  | worker p =>
    cases hw : s.worker p with
    | none =>
      rw [modifyContext, hw] at hf
      exact crash_fault hf
    | some w => exact ⟨w.context, by rw [context, hw]; rfl⟩
  | scheduler p =>
    cases hw : s.scheduler p with
    | none =>
      rw [modifyContext, hw] at hf
      exact crash_fault hf
    | some x => exact ⟨x.context, by rw [context, hw]; rfl⟩

theorem switches_modifyContext (c : ContextRef) {f : UmsContext → UmsContext}
    (hf : ∀ x, (f x).switches = x.switches) (r : ContextRef) :
    (s.modifyContext c f).switches r = s.switches r := by
  rw [switches, switches, context_modifyContext]
  split
  · cases s.context r with
    | none => rfl
    | some x => exact hf x
  · rfl

theorem due_eq_zero (k : Switching) {ops : List SwitchOp} (h : .incSwitches ∉ ops) (r : Role) :
    (Pc.switching k ops).due r = 0 :=
  if_neg (fun hand => h hand.2)

/-- The context that suspends itself in a switch, among those of its thread. -/
theorem role_eq_iff {k : Switching} {r r' : ContextRef} (hk : k.role = some r'.role)
    (ht : r.task = r'.task) : k.role = some r.role ↔ r = r' := by
  constructor
  · intro h
    by_contra hne
    exact ContextRef.role_ne hne ht (Option.some.inj (h.symm.trans hk))
  · rintro rfl
    exact hk

/-- What is due when a store of a switch is left. -/
theorem due_after (k : Switching) (ops : List SwitchOp) (r : Role) :
    (if ops = [] then k.after else Pc.switching k ops).due r =
      if k.role = some r ∧ .incSwitches ∈ ops then 1 else 0 := by
  split
  · rename_i he
    rw [he, if_neg (by simp)]
    cases k <;> rfl
  · rfl

/-- `from->switches++`. -/
theorem SwitchesCounted.inc (h : SwitchesCounted s) (hA : Abs s σ) {k : Switching}
    {ops : List SwitchOp} (hpc : s.pc t = .switching k (.incSwitches :: ops))
    (hf : (s.stepSwitch t k .incSwitches ops).fault = false) :
    SwitchesCounted (s.stepSwitch t k .incSwitches ops) := by
  have hsuf := switching_ops hA hpc
  obtain ⟨hk, hsrc⟩ : k.ops = prepareSwitchContext ∧
      k.role = some (k.contexts t).1.role ∧ (k.contexts t).1.task = t := by
    cases k with
    | enter l => exact absurd (hsuf.subset List.mem_cons_self) (by simp [Switching.ops,
        prepareSuspendContext])
    | exit p => exact absurd (hsuf.subset List.mem_cons_self) (by simp [Switching.ops,
        wakeUpContext])
    | exec w | yield p => exact ⟨rfl, rfl, rfl⟩
  -- the store is made once
  have hops : .incSwitches ∉ ops := by
    rw [hk] at hsuf
    rcases suffix_prepareSwitchContext hsuf with ⟨ho, -⟩ | ⟨-, rfl⟩ | ⟨ho, -⟩ | ⟨ho, -⟩ | ⟨ho, -⟩ |
      ⟨ho, -⟩
    · cases ho
    · decide
    all_goals cases ho
  obtain ⟨x, hx⟩ := context_of_modifyContext (c := (k.contexts t).1) hf
  have hctx := stepSwitch_context s t k .incSwitches ops
  have hrec (r : ContextRef) : (s.stepSwitch t k .incSwitches ops).switches r =
      s.switches r + if r = (k.contexts t).1 then 1 else 0 := by
    rw [switches, switches, hctx, switchOp, context_modifyContext]
    split
    · rename_i hr
      rw [hr, hx]
      rfl
    · exact (BitVec.add_zero _).symm
  have hhist := switchesIn_stepSwitch s t k .incSwitches ops
  refine h.go (stepSwitch_pc s t k _ ops) (fun r hr => ⟨?_, hhist r⟩) (fun r hr hold => ?_)
  · have hne : r ≠ (k.contexts t).1 := fun he => hr (he ▸ hsrc.2)
    rw [hrec, if_neg hne]
    exact BitVec.add_zero _
  · rw [hpc, Pc.due] at hold
    rw [hrec, due_after, hhist, ← hold]
    simp only [role_eq_iff hsrc.1 (hr.trans hsrc.2.symm), hops, List.mem_cons_self, and_true,
      and_false, if_false]
    exact BitVec.add_zero _

theorem SwitchesCounted.switching (h : SwitchesCounted s) (hA : Abs s σ) {k : Switching}
    {op : SwitchOp} {ops : List SwitchOp} (hpc : s.pc t = .switching k (op :: ops))
    (hf : (s.stepSwitch t k op ops).fault = false) : SwitchesCounted (s.stepSwitch t k op ops) := by
  by_cases hop : op = .incSwitches
  · subst hop
    exact h.inc hA hpc hf
  · refine h.keep (stepSwitch_pc s t k op ops) (fun r => ?_) (switchesIn_stepSwitch s t k op ops)
      (fun r => ?_)
    · rw [← switches_congr (stepSwitch_context s t k op ops r).symm]
      cases op with
      | incSwitches => exact absurd rfl hop
      | assignParent | setIdle | setRunning =>
        apply switches_modifyContext
        intro x
        rfl
      | setInterruptible | wakeUp => exact switches_congr (context_congr rfl rfl r)
    · rw [due_after, hpc, Pc.due]
      simp [Ne.symm hop]

/-- The switch that a scheduler or a worker begins is due. -/
theorem SwitchesCounted.begin (h : SwitchesCounted s) {r₀ : ContextRef} (hr₀ : r₀.task = t)
    {k : Switching} (hk : k.role = some r₀.role)
    (hpc : s'.pc = Function.update s.pc t (.switching k prepareSwitchContext))
    (hctx : ∀ r, s'.context r = s.context r) (hold : ∀ r, (s.pc t).due r = 0)
    (hhist : ∀ r, r.switchesIn s'.hist = r.switchesIn s.hist + if r = r₀ then 1 else 0) :
    SwitchesCounted s' := by
  have hsame (r : ContextRef) : s'.switches r = s.switches r := switches_congr (hctx r)
  refine h.go hpc (fun r hr => ⟨hsame r, ?_⟩) (fun r hr hcount => ?_)
  · have hne : r ≠ r₀ := fun he => hr (he ▸ hr₀)
    rw [hhist, if_neg hne, Nat.add_zero]
  · have hmem : .incSwitches ∈ prepareSwitchContext := by decide
    rw [hold] at hcount
    replace hcount := (BitVec.add_zero _).symm.trans hcount
    rw [hsame, hhist, BitVec.ofNat_add, ← hcount, Pc.due]
    simp only [role_eq_iff hk (hr.trans hr₀.symm), hmem, and_true]
    split <;> rfl

/-- The record of a worker that ends is removed, and its next one counts from 0. -/
theorem SwitchesCounted.destroy (h : SwitchesCounted s) (hpc : s.pc t = .destroy) :
    SwitchesCounted ((s.setWorker t none).ret t .exit .ok) := by
  refine h.go (t := t) rfl (fun r hr => ?_) (fun r hr hold => ?_)
  · have hne : r ≠ .worker t := fun he => hr (he ▸ rfl)
    refine ⟨switches_congr (by rw [context_removed, if_neg hne]), ?_⟩
    cases r with
    | scheduler p => rfl
    | worker w => exact if_neg (fun he => hr he.symm)
  · rw [hpc] at hold
    cases r with
    | scheduler p => exact hold
    | worker w =>
      obtain rfl : w = t := hr
      have hgone : ContextRef.switchesIn ((s.setWorker w none).ret w .exit .ok).hist (.worker w) =
          0 := if_pos rfl
      rw [switches, context_removed, if_pos rfl, hgone]
      rfl

/-- A step inside a call. -/
theorem SwitchesCounted.move (h : SwitchesCounted s) (hA : Abs s σ) (hD : Delivered s)
    (hm : s.Move t (s.pc t) s') (hf : s'.fault = false) : SwitchesCounted s' := by
  have hsus := hD.suspends t
  generalize hpc : s.pc t = c at hm
  have hgo {c' : Pc} (hpc' : s'.pc = Function.update s.pc t c')
      (hctx : ∀ r, s'.context r = s.context r)
      (hhist : ∀ r : ContextRef, r.switchesIn s'.hist = r.switchesIn s.hist)
      (hdue : ∀ r, c'.due r = c.due r) : SwitchesCounted s' :=
    h.keep hpc' (fun r => switches_congr (hctx r)) hhist (by rw [hpc]; exact hdue)
  cases hm with
  | switching k op ops => exact h.switching hA hpc hf
  | enterAttach l w hw =>
    exact hgo rfl (context_keep_worker hw rfl rfl rfl) (fun r => rfl)
      (due_eq_zero (.enter l) (by decide))
  | enterAdd l H hadd | yieldAdd x l H hw hadd =>
    exact hgo rfl (context_congr rfl rfl) (fun r => by cases r <;> rfl) (fun _ => rfl)
  | awake a ht =>
    -- such a call does not end a worker
    have hne : a ≠ .exit := by
      rintro rfl
      cases hsus _ (Or.inl hpc)
    exact hgo rfl (context_congr rfl rfl) (switchesIn_ret (Or.inl hne) _) (fun _ => rfl)
  | wake a ht =>
    have hne : a ≠ .exit := by
      rintro rfl
      cases hsus _ (Or.inr hpc)
    exact hgo rfl (context_congr rfl rfl) (switchesIn_ret (Or.inl hne) _) (fun _ => rfl)
  | schedAttach l x hx | startup x hx | evTake x e q hx =>
    exact hgo rfl (context_keep_scheduler hx rfl rfl rfl) (fun r => by cases r <;> rfl)
      (fun _ => rfl)
  | exitPost p x hx =>
    exact hgo rfl (context_keep_scheduler hx rfl rfl rfl) (fun r => by cases r <;> rfl)
      (due_eq_zero (.exit p) (by decide))
  | yieldPost p args x hx =>
    exact h.begin (t := t) rfl rfl rfl (context_keep_scheduler hx rfl rfl rfl)
      (fun r => by rw [hpc]; rfl) (switchesIn_post p args s.hist)
  | destroy => exact h.destroy hpc
  | _ => exact hgo rfl (context_congr rfl rfl) (fun r => by cases r <;> rfl) (fun _ => rfl)

theorem SwitchesCounted.call (h : SwitchesCounted s) {a : DeviceAct} (hpc : s.pc a.caller = .user)
    (hcall : s.call a = some s') : SwitchesCounted s' := by
  have hdue (r : Role) : (s.pc a.caller).due r = 0 := by
    rw [hpc]
    rfl
  have hctx (r : ContextRef) : s'.switches r = s.switches r := by
    rcases context_of_call hcall r with hsame | ⟨hnone, -, x, hx, -, hzero⟩
    · exact switches_congr hsame
    · rw [switches, switches, hnone, hx]
      exact hzero
  cases a with
  | exec t w =>
    rw [Device.call] at hcall
    split at hcall
    · cases hcall
      exact h.begin (t := t) rfl rfl rfl (context_congr rfl rfl) hdue
        (switchesIn_exec w s.hist)
    · cases hcall
      exact h.keep rfl hctx (switchesIn_ret (Or.inl (by simp)) _) (fun r => (hdue r).symm)
  | run | signal => cases hcall
  | _ =>
    rw [Device.call] at hcall
    split at hcall <;> cases hcall <;>
      exact h.keep rfl hctx (fun r => by cases r <;> rfl) (fun r => (hdue r).symm)

theorem switchesCounted_of_reachable (hr : DeviceReachable s) : SwitchesCounted s := by
  have hboth : DeviceReachable s ∧ SwitchesCounted s := by
    apply hr.invariant (fun s => DeviceReachable s ∧ SwitchesCounted s) ⟨.refl, fun c => ?_⟩
    · intro s a s' hI hok hs
      have hr' : DeviceReachable s' := .tail a hI.1 hok hs
      have hf := fault_of_reachable hr'
      refine ⟨hr', ?_⟩
      obtain ⟨σ, -, -, hA⟩ := reachable_handoff hI.1
      rcases step_cases hs with ⟨t, rfl⟩ | ⟨t, rfl⟩ | ⟨hpc, hcall⟩
      · exact hI.2.move hA (delivered_of_reachable hI.1) (move_of_run hs hf) hf
      · obtain ⟨-, rfl⟩ := step_signal hs
        exact hI.2.keep (t := t) (Function.update_eq_self t s.pc).symm
          (fun r => switches_congr (context_congr rfl rfl r)) (fun _ => rfl) (fun _ => rfl)
      · exact hI.2.call hpc hcall
    · cases c <;> rfl
  exact hboth.2

end Device

/-- The number of switches that is shown is, modulo 2 ^ 32, the number of executions of a
scheduler, and of yields of a worker since it entered, but for a switch that its thread has begun
and not counted yet. -/
theorem info_counts_switches {s : Device} (hr : DeviceReachable s) {c : ContextRef}
    {x : UmsContext} (hx : s.context c = some x) :
    x.switches + (s.pc c.task).due c.role = BitVec.ofNat 32 (c.switchesIn s.hist) := by
  have hcount := Device.switchesCounted_of_reachable hr c
  rw [Device.switches, hx] at hcount
  exact hcount

theorem info_counts_switches_yieldTwice :
    ∃ s x, (DeviceReachable s ∧ s.context (.worker 1) = some x ∧ x.switches = 1 ∧
      yieldsOf 1 s.hist = 2) ∧
      x.switches + (s.pc 1).due .worker = BitVec.ofNat 32 (yieldsOf 1 s.hist) := by
  obtain ⟨s, hr, hx, hy⟩ := Transition.Reach.exists_of_run Device.step
    (fun s a => Protocol s a ∧ Calm s a) Device.init yieldTwice
    (fun s => s.context (.worker 1) = some ⟨.running, .context 10, 1⟩ ∧ yieldsOf 1 s.hist = 2)
    (by decide +kernel)
  exact ⟨s, _, ⟨hr, hx, rfl, hy⟩, info_counts_switches hr hx⟩

end LinuxUms
