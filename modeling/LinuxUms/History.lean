import LinuxUms.Handoff

/-! What the history of a hand-over says: which worker a scheduler waits for, who executed a
worker last, and which executions have been answered by an event. -/
namespace LinuxUms

/-- A phase that no scheduler's expectation depends on. -/
def Phase.idle {T : Type*} : Phase T → Bool
  | .posted _ | .execPre _ | .execWait _ => false
  | _ => true

namespace Handoff

variable {T L E : Type*} [DecidableEq T]

-- The latest observation is first, so each function reads back to the latest one that decides.

/-- The worker that the latest execution by `p` has woken. -/
def wokenBy (p : T) : List (Obs T L E) → Option T
  | [] => none
  | .exec q _ :: h => if q = p then none else wokenBy p h
  | .wakeWorker q w :: h => if q = p then some w else wokenBy p h
  | _ :: h => wokenBy p h

/-- `w` was woken by the latest execution by `p`, and has not woken `p` since. -/
def owes (p w : T) : List (Obs T L E) → Bool
  | [] => false
  | .exec q _ :: h => if q = p then false else owes p w h
  | .wakeWorker q v :: h => if q = p ∧ v = w then true else owes p w h
  | .wakeScheduler v q :: h => if v = w ∧ q = p then false else owes p w h
  | _ :: h => owes p w h

/-- The scheduler that executed `w` most recently. -/
def lastExecutor (w : T) : List (Obs T L E) → Option T
  | [] => none
  | .exec q v :: h => if v = w then some q else lastExecutor w h
  | _ :: h => lastExecutor w h

/-- `w` has been woken by an execution since it was last queued. -/
def wokenSinceQueued (w : T) : List (Obs T L E) → Bool
  | [] => false
  | .queued v _ :: h => if v = w then false else wokenSinceQueued w h
  | .wakeWorker _ v :: h => if v = w then true else wokenSinceQueued w h
  | _ :: h => wokenSinceQueued w h

/-- `w` has posted an event to `p` since the latest execution by `p`. -/
def answered (p w : T) : List (Obs T L E) → Bool
  | [] => false
  | .exec q _ :: h => if q = p then false else answered p w h
  | .post q v _ :: h => if q = p ∧ v = w then true else answered p w h
  | _ :: h => answered p w h

/-- The worker of the latest execution by `p`, while it has posted no event since. -/
def outstanding (p : T) : List (Obs T L E) → Option T
  | [] => none
  | .exec q w :: h => if q = p then some w else outstanding p h
  | .post _ v _ :: h => if outstanding p h = some v then none else outstanding p h
  | _ :: h => outstanding p h

/-- The events queued to `p`, oldest first. -/
def eventsTo (p : T) : List (Obs T L E) → List E
  | [] => []
  | .start q e :: h => if q = p then eventsTo p h ++ [e] else eventsTo p h
  | .post q _ e :: h => if q = p then eventsTo p h ++ [e] else eventsTo p h
  | _ :: h => eventsTo p h

/-- The workers that `p` executed, oldest first. -/
def execsBy (p : T) : List (Obs T L E) → List T
  | [] => []
  | .exec q w :: h => if q = p then execsBy p h ++ [w] else execsBy p h
  | _ :: h => execsBy p h

/-- What must have happened before an observation: a worker posts to the scheduler that
executed it last, an execution wakes one worker, and a suspension ends by a switch. -/
def Justified (o : Obs T L E) (h : List (Obs T L E)) : Prop :=
  match o with
  | .post p w _ => lastExecutor w h = some p
  | .wakeWorker p _ => wokenBy p h = none
  | .ret w .enterWorker .ok | .ret w .yield .ok => wokenSinceQueued w h = true
  | .ret p (.exec w) .ok => answered p w h = true
  | _ => True

def AllJustified : List (Obs T L E) → Prop
  | [] => True
  | o :: h => Justified o h ∧ AllJustified h

theorem justified_of_append (h₁ h₂ : List (Obs T L E)) (o : Obs T L E)
    (h : AllJustified (h₁ ++ o :: h₂)) : Justified o h₂ := by
  induction h₁ with
  | nil => exact h.1
  | cons _ h₁ ih => exact ih h.2

/-- Only the worker that an execution woke can owe the scheduler a wake-up. -/
theorem wokenBy_of_owes (p w : T) (h : List (Obs T L E)) (hj : AllJustified h)
    (ho : owes p w h = true) : wokenBy p h = some w := by
  induction h with
  | nil => cases ho
  | cons o h ih =>
    have hih := ih hj.2
    cases o with
    | exec q v =>
      by_cases hq : q = p
      · simp [owes, hq] at ho
      · simp only [owes, wokenBy, hq, if_false] at ho ⊢
        exact hih ho
    | wakeWorker q v =>
      -- `p` wakes one worker after each execution
      have hnone : wokenBy q h = none := hj.1
      by_cases hq : q = p
      · subst hq
        by_cases hv : v = w
        · simp [wokenBy, hv]
        · simp only [owes, hv, and_false, if_false] at ho
          cases hnone.symm.trans (hih ho)
      · simp only [owes, wokenBy, hq, false_and, if_false] at ho ⊢
        exact hih ho
    | wakeScheduler v q =>
      by_cases hv : v = w ∧ q = p
      · simp [owes, hv] at ho
      · simp only [owes, hv, if_false] at ho
        exact hih ho
    | start | post | queued | ret => exact hih ho

/-- The worker whose event `p` is waiting for. -/
def expected (σ : Handoff T L E) (p : T) : Option T :=
  match σ.phase p with
  | .execPre w => some w
  | .execWait w => if σ.phase w = .posted p then none else some w
  | _ => none

/-- How the history and the state of a hand-over belong together. -/
structure HistInv (context : E → Option T) (σ : Handoff T L E) : Prop where
  pre : ∀ p w, σ.phase p = .execPre w → wokenBy p σ.hist = none
  wait : ∀ p w, σ.phase p = .execWait w → owes p w σ.hist = true
  under : ∀ w p, σ.place w = .under p → lastExecutor w σ.hist = some p
  woken : ∀ w, σ.phase w = .woken → wokenSinceQueued w σ.hist = true
  posted : ∀ w p, σ.phase w = .posted p → answered p w σ.hist = true
  resumed : ∀ p w, σ.phase p = .resumed w → answered p w σ.hist = true
  out : ∀ p, outstanding p σ.hist = σ.expected p
  fresh : ∀ p, σ.started p = false → eventsTo p σ.hist = [] ∧ execsBy p σ.hist = [] ∧
    σ.expected p = none
  events : ∀ p, σ.started p = true → ∃ e es, eventsTo p σ.hist = e :: es ∧ context e = none ∧
    es.map context ++ (outstanding p σ.hist).toList.map some = (execsBy p σ.hist).map some
  justified : AllJustified σ.hist

theorem histInv_init (context : E → Option T) : HistInv context (init : Handoff T L E) := by
  constructor <;> simp [init, outstanding, eventsTo, execsBy, AllJustified, expected]

section Preservation

variable {context : E → Option T} {σ σ' : Handoff T L E}

/-- A new phase of `t` that says nothing about the history. -/
theorem phase_of_update {t : T} {y : Phase T} (hy : y.idle = true)
    (hw : y ≠ .woken) (hr : ∀ w, y ≠ .resumed w) (u : T) :
    Function.update σ.phase t y u = σ.phase u ∨
      ((Function.update σ.phase t y u).idle = true ∧ Function.update σ.phase t y u ≠ .woken ∧
        ∀ w, Function.update σ.phase t y u ≠ .resumed w) := by
  by_cases hu : u = t
  · rw [hu, Function.update_self]
    exact Or.inr ⟨hy, hw, hr⟩
  · exact Or.inl (Function.update_of_ne hu _ _)

/-- What `p` waits for depends on its phase and on whether that worker has posted. -/
theorem expected_congr {p : T} (hp : σ'.phase p = σ.phase p)
    (hw : ∀ w, σ.phase p = .execWait w → (σ'.phase w = .posted p ↔ σ.phase w = .posted p)) :
    σ'.expected p = σ.expected p := by
  unfold expected
  rw [hp]
  cases h : σ.phase p with
  | execWait w => exact if_congr (hw w h) rfl rfl
  | _ => rfl

theorem expected_of_idle {p : T} (hp : (σ.phase p).idle = true) : σ.expected p = none := by
  unfold expected
  cases h : σ.phase p with
  | execPre | execWait =>
    rw [h] at hp
    cases hp
  | _ => rfl

theorem expected_update (t : T) (v : Phase T) (ht : (σ.phase t).idle = true) (hv : v.idle = true)
    (hp : σ'.phase = Function.update σ.phase t v) (p : T) : σ'.expected p = σ.expected p := by
  by_cases hpt : p = t
  · subst hpt
    rw [expected_of_idle ht, expected_of_idle]
    rw [hp, Function.update_self]
    exact hv
  · refine expected_congr (by rw [hp, Function.update_of_ne hpt]) fun w _ => ?_
    rw [hp]
    by_cases hw : w = t
    · subst hw
      rw [Function.update_self]
      constructor
      · rintro rfl
        cases hv
      · intro h
        rw [h] at ht
        cases ht
    · rw [Function.update_of_ne hw]

/-- Two histories that tell the same about executions and events. -/
structure SameTold (h h' : List (Obs T L E)) : Prop where
  wokenBy : ∀ p, Handoff.wokenBy p h' = Handoff.wokenBy p h
  owes : ∀ p w, Handoff.owes p w h' = Handoff.owes p w h
  lastExecutor : ∀ w, Handoff.lastExecutor w h' = Handoff.lastExecutor w h
  answered : ∀ p w, Handoff.answered p w h' = Handoff.answered p w h
  outstanding : ∀ p, Handoff.outstanding p h' = Handoff.outstanding p h
  eventsTo : ∀ p, Handoff.eventsTo p h' = Handoff.eventsTo p h
  execsBy : ∀ p, Handoff.execsBy p h' = Handoff.execsBy p h

/-- A step that executes nobody and answers nobody: the history grows at most by the end of a
call or by the queueing of a worker that is not woken. -/
theorem HistInv.neutral (hH : HistInv context σ) (os : List (Obs T L E))
    (hh : σ'.hist = os ++ σ.hist)
    (hos : os = [] ∨ (∃ t c r, os = [.ret t c r] ∧ Justified (.ret t c r) σ.hist) ∨
      ∃ t l, os = [.queued t l] ∧ σ'.phase t ≠ .woken)
    (hst : σ'.started = σ.started) (hex : ∀ p, σ'.expected p = σ.expected p)
    (hpl : ∀ w p, σ'.place w = .under p → σ.place w = .under p)
    (hph : ∀ t, σ'.phase t = σ.phase t ∨ ((σ'.phase t).idle = true ∧ σ'.phase t ≠ .woken ∧
      ∀ w, σ'.phase t ≠ .resumed w)) : HistInv context σ' := by
  have hback (t : T) (y : Phase T) (hy : y.idle = false ∨ y = .woken ∨ ∃ w, y = .resumed w)
      (ht : σ'.phase t = y) : σ.phase t = y := by
    rcases hph t with he | ⟨hidle, hwoken, hres⟩
    · exact he ▸ ht
    · rw [ht] at hidle hwoken hres
      rcases hy with hy | hy | ⟨w, hy⟩
      · cases hy.symm.trans hidle
      · exact absurd hy hwoken
      · exact absurd hy (hres w)
  have hnon (t : T) (y : Phase T) (hy : y.idle = false) := hback t y (Or.inl hy)
  -- the history says the same, but for what it says about the worker that is queued
  have htold : SameTold σ.hist σ'.hist ∧ AllJustified σ'.hist ∧
      ∀ w, σ'.phase w = .woken → wokenSinceQueued w σ'.hist = wokenSinceQueued w σ.hist := by
    rw [hh]
    rcases hos with rfl | ⟨t, c, r, rfl, hj⟩ | ⟨t, l, rfl, hw⟩
    · exact ⟨by constructor <;> intros <;> rfl, hH.justified, fun _ _ => rfl⟩
    · exact ⟨by constructor <;> intros <;> rfl, ⟨hj, hH.justified⟩, fun _ _ => rfl⟩
    · refine ⟨by constructor <;> intros <;> rfl, ⟨trivial, hH.justified⟩, fun w hwoken => ?_⟩
      have htw : t ≠ w := by
        rintro rfl
        exact hw hwoken
      exact if_neg htw
  obtain ⟨hsame, hjust, hqueued⟩ := htold
  exact {
    pre := fun p w hp => (hsame.wokenBy p).trans (hH.pre p w (hnon p _ rfl hp))
    wait := fun p w hp => (hsame.owes p w).trans (hH.wait p w (hnon p _ rfl hp))
    under := fun w p hw => (hsame.lastExecutor w).trans (hH.under w p (hpl w p hw))
    woken := fun w hw =>
      (hqueued w hw).trans (hH.woken w (hback w _ (Or.inr (Or.inl rfl)) hw))
    posted := fun w p hw => (hsame.answered p w).trans (hH.posted w p (hnon w _ rfl hw))
    resumed := fun p w hp =>
      (hsame.answered p w).trans (hH.resumed p w (hback p _ (Or.inr (Or.inr ⟨w, rfl⟩)) hp))
    out := fun p => (hsame.outstanding p).trans ((hH.out p).trans (hex p).symm)
    fresh := fun p hp => by
      rw [hsame.eventsTo, hsame.execsBy, hex]
      exact hH.fresh p (hst ▸ hp)
    events := fun p hp => by
      rw [hsame.eventsTo, hsame.execsBy, hsame.outstanding]
      exact hH.events p (hst ▸ hp)
    justified := hjust }

theorem HistInv.start (hH : HistInv context σ) (p : T) (e : E) (hp : σ.started p = false)
    (he : context e = none) :
    HistInv context { σ with
      started := Function.update σ.started p true
      hist := .start p e :: σ.hist } := by
  refine { hH with fresh := fun q hq => ?_, events := fun q hq => ?_,
                   justified := ⟨trivial, hH.justified⟩ }
  · obtain ⟨hqp, hq⟩ := of_update_eq (by simp) hq
    obtain ⟨hev, hexs, hexp⟩ := hH.fresh q hq
    exact ⟨(if_neg (Ne.symm hqp)).trans hev, hexs, hexp⟩
  · by_cases hqp : q = p
    · subst hqp
      obtain ⟨hev, hexs, hexp⟩ := hH.fresh q hp
      refine ⟨e, [], ?_, he, ?_⟩
      · simp [eventsTo, hev]
      · simp only [outstanding, execsBy, hH.out q, hexs]
        rw [hexp]
        rfl
    · simp only [eventsTo, Ne.symm hqp, if_false]
      simp only [Function.update_of_ne hqp] at hq
      exact hH.events q hq

theorem answered_post (p w : T) (e : E) {q v : T} {h : List (Obs T L E)}
    (hv : answered q v h = true) : answered q v (.post p w e :: h) = true := by
  simp only [answered]
  split
  · rfl
  · exact hv

variable [DecidableEq L]

/-- One scheduler waits for a worker. -/
theorem Inv.eq_of_under (hI : Inv σ) {w p q : T} (hu : σ.place w = .under p)
    (hq : σ.phase q = .execPre w ∨ σ.phase q = .execWait w) : q = p := by
  have h : σ.place w = .under q := hq.elim (hI.execPre q w) (hI.execWait q w)
  exact Place.under.inj (h.symm.trans hu)

theorem HistInv.exec (hH : HistInv context σ) (hI : Inv σ) (p w : T) (hp : σ.phase p = .active)
    (hw : w ∈ σ.ready p) (hs : σ.started p = true) :
    HistInv context { σ with
      phase := Function.update σ.phase p (.execPre w)
      place := Function.update σ.place w (.under p)
      ready := Function.update σ.ready p ((σ.ready p).erase w)
      hist := .exec p w :: σ.hist } := by
  have hh := hI.handed_of_mem p w (Or.inl hw)
  -- nobody answers to `p`, since `p` executes nobody
  have hnone (v : T) : σ.place v ≠ .under p := by
    intro hv
    rcases hI.under v p hv with ⟨h, -⟩ | ⟨h, -⟩ <;> cases hp.symm.trans h
  have hother (q : T) (y : Phase T) (hy : .execPre w ≠ y)
      (hq : Function.update σ.phase p (.execPre w) q = y) : p ≠ q ∧ σ.phase q = y :=
    (of_update_eq hy hq).imp_left Ne.symm
  have hexp : σ.expected p = none := expected_of_idle (by rw [hp]; rfl)
  have hrest (q : T) (hq : q ≠ p) : expected { σ with
      phase := Function.update σ.phase p (.execPre w)
      place := Function.update σ.place w (.under p)
      ready := Function.update σ.ready p ((σ.ready p).erase w)
      hist := .exec p w :: σ.hist } q = σ.expected q := by
    refine expected_congr (Function.update_of_ne hq _ _) fun v _ => ?_
    show Function.update σ.phase p (.execPre w) v = .posted q ↔ _
    by_cases hv : v = p
    · simp [hv, hp]
    · rw [Function.update_of_ne hv]
  constructor
  case pre =>
    intro q v hq
    rcases update_cases hq with ⟨hqp, -⟩ | ⟨hqp, hq⟩
    · exact if_pos hqp.symm
    · exact (if_neg (Ne.symm hqp)).trans (hH.pre q v hq)
  case wait =>
    intro q v hq
    obtain ⟨hqp, hq⟩ := hother q _ (by simp) hq
    exact (if_neg hqp).trans (hH.wait q v hq)
  case under =>
    intro v q hv
    rcases update_cases hv with ⟨hvw, hq⟩ | ⟨hvw, hv⟩
    · exact (if_pos hvw.symm).trans (congrArg some (Place.under.inj hq))
    · exact (if_neg (Ne.symm hvw)).trans (hH.under v q hv)
  case woken => exact fun v hv => hH.woken v (hother v _ (by simp) hv).2
  case posted =>
    intro v q hv
    have hv := (hother v _ (by simp) hv).2
    have hqp : p ≠ q := by
      rintro rfl
      exact hnone v (hI.posted v p hv)
    exact (if_neg hqp).trans (hH.posted v q hv)
  case resumed =>
    intro q v hq
    obtain ⟨hqp, hq⟩ := hother q _ (by simp) hq
    exact (if_neg hqp).trans (hH.resumed q v hq)
  case out =>
    intro q
    by_cases hqp : p = q
    · subst hqp
      simp [outstanding, expected]
    · rw [hrest q (Ne.symm hqp)]
      exact (if_neg hqp).trans (hH.out q)
  case fresh =>
    intro q hq
    have hqp : p ≠ q := by
      rintro rfl
      cases hs.symm.trans hq
    obtain ⟨hev, hexs, hfresh⟩ := hH.fresh q hq
    exact ⟨hev, (if_neg hqp).trans hexs, (hrest q (Ne.symm hqp)).trans hfresh⟩
  case events =>
    intro q hq
    obtain ⟨e, es, hev, he, hes⟩ := hH.events q hq
    refine ⟨e, es, hev, he, ?_⟩
    by_cases hqp : p = q
    · subst hqp
      rw [hH.out p, hexp] at hes
      simp only [outstanding, execsBy, if_true, List.map_append, ← hes]
      simp
    · simpa only [outstanding, execsBy, hqp, if_false] using hes
  case justified => exact ⟨trivial, hH.justified⟩

theorem HistInv.wake (hH : HistInv context σ) (hI : Inv σ) (p w : T)
    (hp : σ.phase p = .execPre w) :
    HistInv context { σ with
      phase := Function.update (Function.update σ.phase w .woken) p (.execWait w)
      hist := .wakeWorker p w :: σ.hist } := by
  have hu := hI.execPre p w hp
  have hk : σ.phase w = .parked := hI.parked_of_execPre hp
  have hpw : w ≠ p := by
    rintro rfl
    cases hk.symm.trans hp
  have hother (q : T) (y : Phase T) (hy : .execWait w ≠ y) (hy' : .woken ≠ y)
      (hq : Function.update (Function.update σ.phase w .woken) p (.execWait w) q = y) :
      p ≠ q ∧ σ.phase q = y := by
    obtain ⟨hqp, hq⟩ := of_update_eq hy hq
    exact ⟨Ne.symm hqp, (of_update_eq hy' hq).2⟩
  -- `p` expects `w` before and after, and nobody else expects a thread that was parked
  have hexp (q : T) : expected { σ with
      phase := Function.update (Function.update σ.phase w .woken) p (.execWait w)
      hist := .wakeWorker p w :: σ.hist } q = σ.expected q := by
    by_cases hqp : q = p
    · subst hqp
      simp [expected, hp, Function.update_of_ne hpw]
    by_cases hqw : q = w
    · subst hqw
      simp [expected, hk, Function.update_of_ne hqp]
    refine expected_congr ?_ fun v hv => ?_
    · simp [Function.update_of_ne hqp, Function.update_of_ne hqw]
    · have hvw : v ≠ w := by
        rintro rfl
        exact hqp (hI.eq_of_under hu (Or.inr hv))
      by_cases hvp : v = p
      · simp [hvp, hp]
      · simp [Function.update_of_ne hvp, Function.update_of_ne hvw]
  constructor
  case pre =>
    intro q v hq
    obtain ⟨hqp, hq⟩ := hother q _ (by simp) (by simp) hq
    exact (if_neg hqp).trans (hH.pre q v hq)
  case wait =>
    intro q v hq
    rcases update_cases hq with ⟨rfl, hv⟩ | ⟨hqp, hq⟩
    · exact if_pos ⟨rfl, Phase.execWait.inj hv⟩
    · have hold := hH.wait q v (of_update_eq (by simp) hq).2
      exact (if_neg fun h => hqp h.1.symm).trans hold
  case under => exact hH.under
  case woken =>
    intro v hv
    rcases update_cases (of_update_eq (by simp) hv).2 with ⟨hvw, -⟩ | ⟨hvw, hv⟩
    · exact if_pos hvw.symm
    · exact (if_neg (Ne.symm hvw)).trans (hH.woken v hv)
  case posted => exact fun v q hv => hH.posted v q (hother v _ (by simp) (by simp) hv).2
  case resumed => exact fun q v hq => hH.resumed q v (hother q _ (by simp) (by simp) hq).2
  case out => exact fun q => (hH.out q).trans (hexp q).symm
  case fresh =>
    intro q hq
    rw [hexp]
    exact hH.fresh q hq
  case events => exact hH.events
  case justified => exact ⟨hH.pre p w hp, hH.justified⟩

/-- The event of `w` is the one that `p`, and nobody else, was waiting for. -/
theorem HistInv.post (hH : HistInv context σ) (hI : Inv σ) (w p : T) (e : E)
    (hw : σ.phase w = .yielding p) (he : context e = some w) :
    HistInv context { σ with
      phase := Function.update σ.phase w (.posted p)
      hist := .post p w e :: σ.hist } := by
  have hu := hI.yielding w p hw
  have hwp : σ.phase p = .execWait w := hI.execWait_of_under hu (by simp [hw])
  have hpw : p ≠ w := by
    rintro rfl
    cases hw.symm.trans hwp
  have hexp : σ.expected p = some w := by simp [expected, hwp, hw]
  have hother (q : T) (y : Phase T) (hy : .posted p ≠ y)
      (hq : Function.update σ.phase w (.posted p) q = y) : σ.phase q = y :=
    (of_update_eq hy hq).2
  have hrest (q : T) (hqp : q ≠ p) : expected { σ with
      phase := Function.update σ.phase w (.posted p)
      hist := .post p w e :: σ.hist } q = σ.expected q := by
    by_cases hqw : q = w
    · subst hqw
      simp [expected, hw]
    · refine expected_congr (Function.update_of_ne hqw _ _) fun v hv => ?_
      have hvw : v ≠ w := by
        rintro rfl
        exact hqp (hI.eq_of_under hu (Or.inr hv))
      simp [Function.update_of_ne hvw]
  -- only `p` has an execute of `w` that is not answered
  have hne (q : T) (hqp : q ≠ p) : outstanding q σ.hist ≠ some w := by
    rw [hH.out q]
    intro h
    apply hqp
    apply hI.eq_of_under hu
    unfold expected at h
    cases hq : σ.phase q with
    | execPre v =>
      simp only [hq, Option.some.injEq] at h
      exact Or.inl (by rw [h])
    | execWait v =>
      rw [hq] at h
      simp only [Option.ite_none_left_eq_some, Option.some.injEq] at h
      exact Or.inr (by rw [h.2])
    | _ => simp [hq] at h
  constructor
  case pre => exact fun q v hq => hH.pre q v (hother q _ (by simp) hq)
  case wait => exact fun q v hq => hH.wait q v (hother q _ (by simp) hq)
  case under => exact hH.under
  case woken => exact fun v hv => hH.woken v (hother v _ (by simp) hv)
  case posted =>
    intro v q hv
    rcases update_cases hv with ⟨rfl, hq⟩ | ⟨-, hv⟩
    · exact if_pos ⟨Phase.posted.inj hq, rfl⟩
    · exact answered_post p w e (hH.posted v q hv)
  case resumed =>
    exact fun q v hq => answered_post p w e (hH.resumed q v (hother q _ (by simp) hq))
  case out =>
    intro q
    by_cases hqp : q = p
    · subst hqp
      simp [outstanding, hH.out q, expected, Function.update_of_ne hpw, hwp]
    · rw [hrest q hqp]
      exact (if_neg (hne q hqp)).trans (hH.out q)
  case fresh =>
    intro q hq
    obtain ⟨hev, hexs, hfresh⟩ := hH.fresh q hq
    have hqp : q ≠ p := by
      rintro rfl
      cases hexp.symm.trans hfresh
    exact ⟨(if_neg (Ne.symm hqp)).trans hev, hexs, (hrest q hqp).trans hfresh⟩
  case events =>
    intro q hq
    obtain ⟨e', es, hev, he', hes⟩ := hH.events q hq
    by_cases hqp : p = q
    · subst hqp
      refine ⟨e', es ++ [e], by simp [eventsTo, hev], he', ?_⟩
      rw [hH.out p, hexp] at hes
      simpa [outstanding, hH.out p, hexp, execsBy, he] using hes
    · refine ⟨e', es, by simpa [eventsTo, hqp] using hev, he', ?_⟩
      simpa only [outstanding, hne q (Ne.symm hqp), if_false, execsBy] using hes
  case justified => exact ⟨hH.under w p hu, hH.justified⟩

/-- The wake-up comes after the event, so it changes nobody's expectation. -/
theorem HistInv.wakeSched (hH : HistInv context σ) (hI : Inv σ) (w p : T)
    (hw : σ.phase w = .posted p) :
    HistInv context { σ with
      phase := Function.update (Function.update σ.phase p (.resumed w)) w .leaving
      place := Function.update σ.place w .leaving
      hist := .wakeScheduler w p :: σ.hist } := by
  have hu := hI.posted w p hw
  have hwp : σ.phase p = .execWait w := hI.execWait_of_under hu (by simp [hw])
  have hother (q : T) (y : Phase T) (hy : .leaving ≠ y) (hy' : .resumed w ≠ y)
      (hq : Function.update (Function.update σ.phase p (.resumed w)) w .leaving q = y) :
      q ≠ p ∧ σ.phase q = y := of_update_eq hy' (of_update_eq hy hq).2
  -- the answer has been posted before, so `p` expects nobody any more
  have hexp (q : T) : expected { σ with
      phase := Function.update (Function.update σ.phase p (.resumed w)) w .leaving
      place := Function.update σ.place w .leaving
      hist := .wakeScheduler w p :: σ.hist } q = σ.expected q := by
    by_cases hqw : q = w
    · subst hqw
      simp [expected, hw]
    by_cases hqp : q = p
    · subst hqp
      simp [expected, Function.update_of_ne hqw, hwp, hw]
    refine expected_congr ?_ fun v hv => ?_
    · simp [Function.update_of_ne hqw, Function.update_of_ne hqp]
    · have hvw : v ≠ w := by
        rintro rfl
        exact hqp (hI.eq_of_under hu (Or.inr hv))
      by_cases hvp : v = p
      · simp [hvp, hwp, Function.update_of_ne (hvp ▸ hvw)]
      · simp [Function.update_of_ne hvw, Function.update_of_ne hvp]
  constructor
  case pre => exact fun q v hq => hH.pre q v (hother q _ (by simp) (by simp) hq).2
  case wait =>
    intro q v hq
    obtain ⟨hqp, hq⟩ := hother q _ (by simp) (by simp) hq
    exact (if_neg fun h => hqp h.2.symm).trans (hH.wait q v hq)
  case under => exact fun v q hv => hH.under v q (of_update_eq (by simp) hv).2
  case woken => exact fun v hv => hH.woken v (hother v _ (by simp) (by simp) hv).2
  case posted => exact fun v q hv => hH.posted v q (hother v _ (by simp) (by simp) hv).2
  case resumed =>
    intro q v hq
    rcases update_cases (of_update_eq (by simp) hq).2 with ⟨rfl, hv⟩ | ⟨-, hq⟩
    · exact Phase.resumed.inj hv ▸ hH.posted w q hw
    · exact hH.resumed q v hq
  case out => exact fun q => (hH.out q).trans (hexp q).symm
  case fresh =>
    intro q hq
    rw [hexp]
    exact hH.fresh q hq
  case events => exact hH.events
  case justified => exact ⟨trivial, hH.justified⟩

omit [DecidableEq L] in
theorem under_of_claim {p c w q : T} {cs : List T} (h : σ.claim p c cs w = .under q) :
    σ.place w = .under q := by
  unfold claim at h
  split at h
  · cases h
  split at h
  · cases h
  · exact h

theorem HistInv.step (hH : HistInv context σ) (hI : Inv σ) (h : Step context σ σ') :
    HistInv context σ' := by
  cases h with
  | start p e hp he => exact hH.start p e hp he
  | exec p w hp hw hs => exact hH.exec hI p w hp hw hs
  | wake p w hp => exact hH.wake hI p w hp
  | post w p e hw he => exact hH.post hI w p e hw he
  | wakeSched w p hw => exact hH.wakeSched hI w p hw
  | enter t hp hl =>
    -- the other steps add nothing to the history but returns and insertions
    refine hH.neutral [] rfl (Or.inl rfl) rfl ?_ ?_ ?_
    · exact expected_update t _ (by rw [hp]; rfl) rfl rfl
    · exact fun u q hu => (of_update_eq (by simp) hu).2
    · exact phase_of_update rfl (by simp) (by simp)
  | insert t l ht =>
    refine hH.neutral [.queued t l] rfl (Or.inr (Or.inr ⟨t, l, rfl, by simp⟩)) rfl ?_ ?_ ?_
    · exact expected_update t _ (by rcases ht with ht | ht <;> rw [ht] <;> rfl) rfl rfl
    · exact fun u q hu => (of_update_eq (by simp) hu).2
    · exact phase_of_update rfl (by simp) (by simp)
  | dequeue p l c cs hq =>
    exact hH.neutral [] rfl (Or.inl rfl) rfl (fun _ => rfl) (fun _ _ => under_of_claim)
      (fun _ => Or.inl rfl)
  | next p c d ds hc hr =>
    exact hH.neutral [.ret p .nextContext .ok] rfl (Or.inr (Or.inl ⟨_, _, _, rfl, trivial⟩)) rfl
      (fun _ => rfl) (fun _ _ => under_of_claim) (fun _ => Or.inl rfl)
  | close p c hc hr =>
    exact hH.neutral [.ret p .nextContext .ok] rfl (Or.inr (Or.inl ⟨_, _, _, rfl, trivial⟩)) rfl
      (fun _ => rfl) (fun _ _ h => h) (fun _ => Or.inl rfl)
  | resume w c hw hc =>
    have hj : Justified (.ret w c .ok) σ.hist := by
      rcases hc with rfl | rfl <;> exact hH.woken w hw
    refine hH.neutral [.ret w c .ok] rfl (Or.inr (Or.inl ⟨_, _, _, rfl, hj⟩)) rfl ?_
      (fun _ _ h => h) ?_
    · exact expected_update w _ (by rw [hw]; rfl) rfl rfl
    · exact phase_of_update rfl (by simp) (by simp)
  | yield w p hw hl =>
    refine hH.neutral [] rfl (Or.inl rfl) rfl ?_ (fun _ _ h => h) ?_
    · exact expected_update w _ (by rw [hw]; rfl) rfl rfl
    · exact phase_of_update rfl (by simp) (by simp)
  | execReturn p w hp =>
    refine hH.neutral [.ret p (.exec w) .ok] rfl
      (Or.inr (Or.inl ⟨_, _, _, rfl, hH.resumed p w hp⟩)) rfl ?_ (fun _ _ h => h) ?_
    · exact expected_update p _ (by rw [hp]; rfl) rfl rfl
    · exact phase_of_update rfl (by simp) (by simp)
  | destroy w hw =>
    refine hH.neutral [.ret w .exit .ok] rfl (Or.inr (Or.inl ⟨_, _, _, rfl, trivial⟩)) rfl ?_ ?_ ?_
    · exact expected_update w _ (by rw [hw]; rfl) rfl rfl
    · exact fun u q hu => (of_update_eq (by simp) hu).2
    · exact phase_of_update rfl (by simp) (by simp)
  | ret t c r hr =>
    have hj : Justified (.ret t c r) σ.hist := by
      cases c <;> cases r <;> simp [Justified, Call.suspends] at hr ⊢
    exact hH.neutral [.ret t c r] rfl (Or.inr (Or.inl ⟨_, _, _, rfl, hj⟩)) rfl (fun _ => rfl)
      (fun _ _ h => h) (fun _ => Or.inl rfl)

end Preservation

end Handoff

end LinuxUms
