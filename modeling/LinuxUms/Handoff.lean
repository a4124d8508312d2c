import Mathlib.Data.List.Count
import Mathlib.Data.List.Flatten
import Mathlib.Logic.Function.Basic

/-! What the hand-over of contexts between schedulers and workers is for, without pointers:
a worker is always in one place, and each place says what its thread is doing. Threads and
completion lists are of any type. -/
namespace LinuxUms

/-- A thread's part in a hand-over. -/
inductive Phase (T : Type*) where
  -- in user code, or in a call that suspends nobody
  | active
  -- a worker that has been created and not queued yet
  | entering
  -- a suspended worker
  | parked
  -- a worker made runnable that has not returned to user code
  | woken
  -- a worker leaving its scheduler `p`, before and after it has posted its event
  | yielding (p : T)
  | posted (p : T)
  -- a worker that has woken its scheduler and is not queued or destroyed yet
  | leaving
  -- a scheduler executing `w`: it has not woken `w` yet, it waits, `w` has woken it
  | execPre (w : T)
  | execWait (w : T)
  | resumed (w : T)
  deriving DecidableEq

/-- Where a worker is. -/
inductive Place (T L : Type*) where
  | off
  | entering
  | queued (l : L)
  -- in the batch of scheduler `p`, behind the handle `c`
  | batch (p c : T)
  | handed (p : T)
  | under (p : T)
  | leaving
  deriving DecidableEq

def Place.isHanded {T L : Type*} : Place T L → Bool
  | .handed _ => true
  | _ => false

/-- A place that no queue, batch or ready list records. -/
def Place.unlisted {T L : Type*} : Place T L → Bool
  | .off | .entering | .under _ | .leaving => true
  | .queued _ | .batch _ _ | .handed _ => false

inductive Call (T : Type*) where
  | enterWorker
  | enterScheduler
  | dqcontext
  | nextContext
  | exec (w : T)
  | yield
  | exit
  | dqevent
  deriving DecidableEq

inductive Result where
  | ok
  | enomem
  | esrch
  | erestartsys
  deriving DecidableEq

/-- A call whose success is the end of a suspension. -/
def Call.suspends {T : Type*} : Call T → Bool
  | .enterWorker | .yield | .exec _ => true
  | _ => false

/-- What the threads did. An event is posted by a worker, or by the scheduler itself when it
starts. -/
inductive Obs (T L E : Type*) where
  | exec (p w : T)
  | wakeWorker (p w : T)
  | wakeScheduler (w p : T)
  | start (p : T) (e : E)
  | post (p w : T) (e : E)
  | queued (w : T) (l : L)
  | ret (t : T) (c : Call T) (r : Result)
  deriving DecidableEq

/-- The hand-over state, with the latest observation first in `hist`. `rest c` is what the next
calls on the handle `c` will return; `batches p` are the undrained batches of the scheduler
`p`, each with its handle first and then what it returned before; `ready p` is what `p` may
execute. -/
structure Handoff (T L E : Type*) where
  phase : T → Phase T
  place : T → Place T L
  queue : L → List T
  rest : T → List T
  batches : T → List (List T)
  ready : T → List T
  started : T → Bool
  hist : List (Obs T L E)

section Batches

variable {T : Type*} [DecidableEq T]

/-- The batch with handle `c` has returned `d`. -/
def handNext (c d : T) : List (List T) → List (List T)
  | [] => []
  | b :: bs => if b.head? = some c then (d :: b) :: bs else b :: handNext c d bs

/-- Takes the batch with handle `c` out. -/
def closeBatch (c : T) : List (List T) → List T × List (List T)
  | [] => ([], [])
  | b :: bs =>
    if b.head? = some c then (b, bs)
    else ((closeBatch c bs).1, b :: (closeBatch c bs).2)

/-- `c` is the handle of one of the batches. -/
def IsHandle (c : T) (bs : List (List T)) : Prop :=
  some c ∈ bs.map List.head?

instance (c : T) (bs : List (List T)) : Decidable (IsHandle c bs) :=
  inferInstanceAs (Decidable (some c ∈ bs.map List.head?))

omit [DecidableEq T] in
theorem isHandle_cons (c : T) (b : List T) (bs : List (List T)) :
    IsHandle c (b :: bs) ↔ b.head? = some c ∨ IsHandle c bs := by
  simp [IsHandle, eq_comm]

omit [DecidableEq T] in
theorem isHandle_mem_flatten (c : T) (bs : List (List T)) (h : IsHandle c bs) :
    c ∈ bs.flatten := by
  obtain ⟨b, hb, hc⟩ := List.mem_map.mp h
  exact List.mem_flatten.mpr ⟨b, hb, List.mem_of_mem_head? hc⟩

theorem count_handNext (c d w : T) (bs : List (List T)) (h : IsHandle c bs) :
    (handNext c d bs).flatten.count w = bs.flatten.count w + if d = w then 1 else 0 := by
  induction bs with
  | nil => simp [IsHandle] at h
  | cons b bs ih =>
    by_cases hb : b.head? = some c
    · simp [handNext, hb, List.count_cons]
    · have ht : IsHandle c bs := ((isHandle_cons c b bs).mp h).resolve_left hb
      simp only [handNext, hb, if_false, List.flatten_cons, List.count_append, ih ht]
      omega

theorem count_closeBatch (c w : T) (bs : List (List T)) :
    (closeBatch c bs).1.count w + (closeBatch c bs).2.flatten.count w = bs.flatten.count w := by
  induction bs with
  | nil => simp [closeBatch]
  | cons b bs ih =>
    by_cases hb : b.head? = some c
    · simp [closeBatch, hb]
    · simp only [closeBatch, hb, if_false, List.flatten_cons, List.count_append]
      omega

/-- Returning `d` passes the handle on and leaves the other handles. -/
theorem isHandle_handNext (c d e : T) (bs : List (List T)) (h : IsHandle c bs)
    (he : e = d ∨ (e ≠ c ∧ IsHandle e bs)) : IsHandle e (handNext c d bs) := by
  induction bs with
  | nil => simp [IsHandle] at h
  | cons b bs ih =>
    rw [isHandle_cons] at h
    by_cases hb : b.head? = some c
    · -- the batch of `c` is the first one, and `d` its new head
      rw [handNext, if_pos hb, isHandle_cons]
      rcases he with rfl | ⟨hec, he⟩
      · exact Or.inl rfl
      · rw [isHandle_cons, hb, Option.some.injEq] at he
        exact Or.inr (he.resolve_left (Ne.symm hec))
    · rw [handNext, if_neg hb, isHandle_cons]
      have ht := h.resolve_left hb
      rcases he with he | ⟨hec, he⟩
      · exact Or.inr (ih ht (Or.inl he))
      · exact ((isHandle_cons e b bs).mp he).imp_right fun he => ih ht (Or.inr ⟨hec, he⟩)

theorem isHandle_closeBatch (c e : T) (bs : List (List T)) (hne : e ≠ c) (h : IsHandle e bs) :
    IsHandle e (closeBatch c bs).2 := by
  induction bs with
  | nil => simp [IsHandle] at h
  | cons b bs ih =>
    rw [isHandle_cons] at h
    by_cases hb : b.head? = some c
    · rw [closeBatch, if_pos hb]
      rw [hb, Option.some.injEq] at h
      exact h.resolve_left (Ne.symm hne)
    · rw [closeBatch, if_neg hb, isHandle_cons]
      exact h.imp_right ih

end Batches

/-- What the places that no queue, batch or ready list records say about the phases. -/
structure PhasesOk {T L : Type*} (phase : T → Phase T) (place : T → Place T L) : Prop where
  entering : ∀ t, place t = .entering ↔ phase t = .entering
  leaving : ∀ t, place t = .leaving ↔ phase t = .leaving
  under : ∀ t p, place t = .under p →
    (phase p = .execPre t ∧ phase t = .parked) ∨ (phase p = .execWait t ∧ phase t ≠ .parked)
  off : ∀ t, place t = .off → phase t ≠ .parked ∧ phase t ≠ .woken
  execPre : ∀ p w, phase p = .execPre w → place w = .under p
  execWait : ∀ p w, phase p = .execWait w → place w = .under p
  yielding : ∀ w p, phase w = .yielding p → place w = .under p
  posted : ∀ w p, phase w = .posted p → place w = .under p

section Phases

variable {T L : Type*} {phase : T → Phase T} {place place' : T → Place T L} {t w p : T}

/-- A worker that goes from one listed place to another, or from one unlisted place to another,
has come to no place of the other kind. -/
theorem place_eq_iff {b : Bool} {pl : Place T L}
    (h : place' w = place w ∨ ((place w).unlisted = b ∧ (place' w).unlisted = b))
    (hpl : pl.unlisted ≠ b) : place' w = pl ↔ place w = pl := by
  rcases h with he | ⟨hold, hnew⟩
  · rw [he]
  · constructor
    · intro h
      rw [h] at hnew
      exact absurd hnew hpl
    · intro h
      rw [h] at hold
      exact absurd hold hpl

/-- Moves between the lists are nothing to the phases. -/
theorem PhasesOk.relist (h : PhasesOk phase place)
    (hplace : ∀ w, place' w = place w ∨
      ((place w).unlisted = false ∧ (place' w).unlisted = false)) : PhasesOk phase place' := by
  have hsame (w : T) (pl : Place T L) (hpl : pl.unlisted = true) :
      place' w = pl ↔ place w = pl := by
    apply place_eq_iff (hplace w)
    simp [hpl]
  exact {
    entering := fun t => (hsame t _ rfl).trans (h.entering t)
    leaving := fun t => (hsame t _ rfl).trans (h.leaving t)
    under := fun t p ht => h.under t p ((hsame t _ rfl).mp ht)
    off := fun t ht => h.off t ((hsame t _ rfl).mp ht)
    execPre := fun p w hp => (hsame w _ rfl).mpr (h.execPre p w hp)
    execWait := fun p w hp => (hsame w _ rfl).mpr (h.execWait p w hp)
    yielding := fun w p hw => (hsame w _ rfl).mpr (h.yielding w p hw)
    posted := fun w p hw => (hsame w _ rfl).mpr (h.posted w p hw) }

/-- The phases of a thread that has a scheduler to go back to, or a worker to wait for. -/
def Phase.paired {T : Type*} : Phase T → Bool
  | .yielding _ | .posted _ | .execPre _ | .execWait _ => true
  | _ => false

/-- The phases that no place asks for. -/
def Phase.loose {T : Type*} : Phase T → Bool
  | .active | .woken | .yielding _ | .posted _ | .resumed _ => true
  | _ => false

variable [DecidableEq T]

theorem update_cases {α : Type*} {f : T → α} {x v : α} (h : Function.update f t x w = v) :
    (w = t ∧ x = v) ∨ (w ≠ t ∧ f w = v) := by
  by_cases hw : w = t
  · subst hw
    rw [Function.update_self] at h
    exact Or.inl ⟨rfl, h⟩
  · rw [Function.update_of_ne hw] at h
    exact Or.inr ⟨hw, h⟩

/-- What a value is found at was not updated by another one. -/
theorem of_update_eq {α : Type*} {f : T → α} {x v : α} (hx : x ≠ v)
    (h : Function.update f t x w = v) : w ≠ t ∧ f w = v :=
  (update_cases h).resolve_left fun he => hx he.2

/-- A thread that executes nobody and is executed by nobody takes up another part of its own. -/
theorem PhasesOk.move (h : PhasesOk phase place) {x : Phase T} {pl : Place T L}
    (hfree : ∀ p, place t ≠ .under p) (hidle : (phase t).paired = false)
    (hx : x.paired = false) (hpl : ∀ p, pl ≠ .under p) (hent : pl = .entering ↔ x = .entering)
    (hleave : pl = .leaving ↔ x = .leaving) (hoff : pl = .off → x ≠ .parked ∧ x ≠ .woken) :
    PhasesOk (Function.update phase t x) (Function.update place t pl) := by
  -- a paired phase belongs to another thread, before the move and after it
  have hphase (y : Phase T) (hy : y.paired = true) (u : T)
      (hu : Function.update phase t x u = y) : phase u = y := by
    refine (of_update_eq ?_ hu).2
    rintro rfl
    rw [hx] at hy
    cases hy
  have hkeep (y : Phase T) (hy : y.paired = true) (u : T) (hu : phase u = y) : u ≠ t := by
    rintro rfl
    rw [← hu, hidle] at hy
    cases hy
  have hunder (u p : T) (hu : place u = .under p) : Function.update place t pl u = .under p := by
    rw [Function.update_of_ne, hu]
    rintro rfl
    exact hfree p hu
  have hown (q : Place T L) (y : Phase T) (hnew : pl = q ↔ x = y)
      (hold : ∀ u, place u = q ↔ phase u = y) (u : T) :
      Function.update place t pl u = q ↔ Function.update phase t x u = y := by
    by_cases hu : u = t
    · subst hu
      rw [Function.update_self, Function.update_self]
      exact hnew
    · rw [Function.update_of_ne hu, Function.update_of_ne hu]
      exact hold u
  constructor
  case entering => exact hown _ _ hent h.entering
  case leaving => exact hown _ _ hleave h.leaving
  case under =>
    intro u p hp
    obtain ⟨hu, hp⟩ := of_update_eq (hpl p) hp
    rw [Function.update_of_ne hu]
    rcases h.under u p hp with ⟨hpre, hpark⟩ | ⟨hwait, hpark⟩
    · exact Or.inl ⟨(Function.update_of_ne (hkeep _ rfl p hpre) _ _).trans hpre, hpark⟩
    · exact Or.inr ⟨(Function.update_of_ne (hkeep _ rfl p hwait) _ _).trans hwait, hpark⟩
  case off =>
    intro u hu
    by_cases hut : u = t
    · subst hut
      rw [Function.update_self] at hu ⊢
      exact hoff hu
    · rw [Function.update_of_ne hut] at hu ⊢
      exact h.off u hu
  case execPre => exact fun p w hp => hunder w p (h.execPre p w (hphase _ rfl p hp))
  case execWait => exact fun p w hp => hunder w p (h.execWait p w (hphase _ rfl p hp))
  case yielding => exact fun w p hw => hunder w p (h.yielding w p (hphase _ rfl w hw))
  case posted => exact fun w p hw => hunder w p (h.posted w p (hphase _ rfl w hw))

/-- A thread goes on where it is. -/
theorem PhasesOk.loosen (h : PhasesOk phase place) {x : Phase T} (ht : (phase t).loose = true)
    (hx : x.loose = true) (hsched : ∀ p, x = .yielding p ∨ x = .posted p → place t = .under p)
    (hoff : place t = .off → x ≠ .woken) : PhasesOk (Function.update phase t x) place := by
  -- neither the old phase nor the new one is asked for by a place
  have hphase (y : Phase T) (hy : y.loose = false) (u : T) :
      Function.update phase t x u = y ↔ phase u = y := by
    by_cases hu : u = t
    · subst hu
      rw [Function.update_self]
      constructor
      · rintro rfl
        rw [hx] at hy
        cases hy
      · rintro rfl
        rw [ht] at hy
        cases hy
    · rw [Function.update_of_ne hu]
  have hback (y : Phase T) (p : T) (hy : y = .yielding p ∨ y = .posted p)
      (hold : ∀ u, phase u = y → place u = .under p) (u : T)
      (hu : Function.update phase t x u = y) : place u = .under p := by
    by_cases hut : u = t
    · subst hut
      rw [Function.update_self] at hu
      exact hsched p (hu ▸ hy)
    · rw [Function.update_of_ne hut] at hu
      exact hold u hu
  constructor
  case entering => exact fun u => (h.entering u).trans (hphase _ rfl u).symm
  case leaving => exact fun u => (h.leaving u).trans (hphase _ rfl u).symm
  case under =>
    intro u p hp
    rw [ne_eq, hphase _ rfl p, hphase _ rfl u, hphase _ rfl p]
    exact h.under u p hp
  case off =>
    intro u hu
    refine ⟨mt (hphase _ rfl u).mp (h.off u hu).1, ?_⟩
    by_cases hut : u = t
    · subst hut
      rw [Function.update_self]
      exact hoff hu
    · rw [Function.update_of_ne hut]
      exact (h.off u hu).2
  case execPre => exact fun p w hp => h.execPre p w ((hphase _ rfl p).mp hp)
  case execWait => exact fun p w hp => h.execWait p w ((hphase _ rfl p).mp hp)
  case yielding => exact fun w p => hback _ p (Or.inl rfl) (fun u => h.yielding u p) w
  case posted => exact fun w p => hback _ p (Or.inr rfl) (fun u => h.posted u p) w

/-- The scheduler `p` begins to execute a worker that was handed to it. -/
theorem PhasesOk.exec (h : PhasesOk phase place) (hp : phase p = .active)
    (hl : place w = .handed p) (hw : phase w = .parked) :
    PhasesOk (Function.update phase p (.execPre w)) (Function.update place w (.under p)) := by
  obtain ⟨hent, hleave, hunder, hoff, hpre, hwait, hyield, hpost⟩ := h
  constructor <;> simp only [Function.update_apply] <;> grind

theorem PhasesOk.wake (h : PhasesOk phase place) (hp : phase p = .execPre w) :
    PhasesOk (Function.update (Function.update phase w .woken) p (.execWait w)) place := by
  obtain ⟨hent, hleave, hunder, hoff, hpre, hwait, hyield, hpost⟩ := h
  constructor <;> simp only [Function.update_apply] <;> grind

theorem PhasesOk.wakeSched (h : PhasesOk phase place) (hw : phase w = .posted p) :
    PhasesOk (Function.update (Function.update phase p (.resumed w)) w .leaving)
      (Function.update place w .leaving) := by
  obtain ⟨hent, hleave, hunder, hoff, hpre, hwait, hyield, hpost⟩ := h
  constructor <;> simp only [Function.update_apply] <;> grind

end Phases

namespace Handoff

variable {T L E : Type*} [DecidableEq T] [DecidableEq L]

def init : Handoff T L E :=
  ⟨fun _ => .active, fun _ => .off, fun _ => [], fun _ => [], fun _ => [], fun _ => [],
    fun _ => false, []⟩

/-- The scheduler `p` gets the handle `c`, and `cs` behind it. -/
def claim (σ : Handoff T L E) (p c : T) (cs : List T) (w : T) : Place T L :=
  if w = c then .handed p else if w ∈ cs then .batch p c else σ.place w

/-- The steps of a hand-over; `context` is the worker that an event is about. -/
inductive Step (context : E → Option T) : Handoff T L E → Handoff T L E → Prop where
  | start (σ : Handoff T L E) (p : T) (e : E) (hp : σ.started p = false)
      (he : context e = none) :
      Step context σ { σ with
        started := Function.update σ.started p true
        hist := .start p e :: σ.hist }
  | enter (σ : Handoff T L E) (t : T) (hp : σ.phase t = .active) (hl : σ.place t = .off) :
      Step context σ { σ with
        phase := Function.update σ.phase t .entering
        place := Function.update σ.place t .entering }
  | insert (σ : Handoff T L E) (t : T) (l : L)
      (ht : σ.phase t = .entering ∨ σ.phase t = .leaving) :
      Step context σ { σ with
        phase := Function.update σ.phase t .parked
        place := Function.update σ.place t (.queued l)
        queue := Function.update σ.queue l (σ.queue l ++ [t])
        hist := .queued t l :: σ.hist }
  | dequeue (σ : Handoff T L E) (p : T) (l : L) (c : T) (cs : List T)
      (hq : σ.queue l = c :: cs) :
      Step context σ { σ with
        place := σ.claim p c cs
        queue := Function.update σ.queue l []
        rest := Function.update σ.rest c cs
        batches := Function.update σ.batches p ([c] :: σ.batches p) }
  | next (σ : Handoff T L E) (p c d : T) (ds : List T) (hc : IsHandle c (σ.batches p))
      (hr : σ.rest c = d :: ds) :
      Step context σ { σ with
        place := σ.claim p d ds
        rest := Function.update (Function.update σ.rest c []) d ds
        batches := Function.update σ.batches p (handNext c d (σ.batches p))
        hist := .ret p .nextContext .ok :: σ.hist }
  | close (σ : Handoff T L E) (p c : T) (hc : IsHandle c (σ.batches p)) (hr : σ.rest c = []) :
      Step context σ { σ with
        batches := Function.update σ.batches p (closeBatch c (σ.batches p)).2
        ready := Function.update σ.ready p (σ.ready p ++ (closeBatch c (σ.batches p)).1)
        hist := .ret p .nextContext .ok :: σ.hist }
  | exec (σ : Handoff T L E) (p w : T) (hp : σ.phase p = .active) (hw : w ∈ σ.ready p)
      (hs : σ.started p = true) :
      Step context σ { σ with
        phase := Function.update σ.phase p (.execPre w)
        place := Function.update σ.place w (.under p)
        ready := Function.update σ.ready p ((σ.ready p).erase w)
        hist := .exec p w :: σ.hist }
  | wake (σ : Handoff T L E) (p w : T) (hp : σ.phase p = .execPre w) :
      Step context σ { σ with
        phase := Function.update (Function.update σ.phase w .woken) p (.execWait w)
        hist := .wakeWorker p w :: σ.hist }
  | resume (σ : Handoff T L E) (w : T) (c : Call T) (hw : σ.phase w = .woken)
      (hc : c = .enterWorker ∨ c = .yield) :
      Step context σ { σ with
        phase := Function.update σ.phase w .active
        hist := .ret w c .ok :: σ.hist }
  | yield (σ : Handoff T L E) (w p : T) (hw : σ.phase w = .active) (hl : σ.place w = .under p) :
      Step context σ { σ with phase := Function.update σ.phase w (.yielding p) }
  | post (σ : Handoff T L E) (w p : T) (e : E) (hw : σ.phase w = .yielding p)
      (he : context e = some w) :
      Step context σ { σ with
        phase := Function.update σ.phase w (.posted p)
        hist := .post p w e :: σ.hist }
  | wakeSched (σ : Handoff T L E) (w p : T) (hw : σ.phase w = .posted p) :
      Step context σ { σ with
        phase := Function.update (Function.update σ.phase p (.resumed w)) w .leaving
        place := Function.update σ.place w .leaving
        hist := .wakeScheduler w p :: σ.hist }
  | execReturn (σ : Handoff T L E) (p w : T) (hp : σ.phase p = .resumed w) :
      Step context σ { σ with
        phase := Function.update σ.phase p .active
        hist := .ret p (.exec w) .ok :: σ.hist }
  | destroy (σ : Handoff T L E) (w : T) (hw : σ.phase w = .leaving) :
      Step context σ { σ with
        phase := Function.update σ.phase w .active
        place := Function.update σ.place w .off
        hist := .ret w .exit .ok :: σ.hist }
  -- the end of a call that suspended nobody
  | ret (σ : Handoff T L E) (t : T) (c : Call T) (r : Result)
      (hr : r ≠ .ok ∨ c.suspends = false) :
      Step context σ { σ with hist := .ret t c r :: σ.hist }

/-- The place of every worker agrees with what its thread and its scheduler are doing, and
the queues, batches and ready lists hold exactly the workers placed there. -/
structure Inv (σ : Handoff T L E) : Prop where
  entering : ∀ t, σ.place t = .entering ↔ σ.phase t = .entering
  leaving : ∀ t, σ.place t = .leaving ↔ σ.phase t = .leaving
  queued : ∀ t l, σ.place t = .queued l → σ.phase t = .parked
  batch : ∀ t p c, σ.place t = .batch p c → σ.phase t = .parked ∧ IsHandle c (σ.batches p)
  handed : ∀ t p, σ.place t = .handed p → σ.phase t = .parked
  under : ∀ t p, σ.place t = .under p →
    (σ.phase p = .execPre t ∧ σ.phase t = .parked) ∨
      (σ.phase p = .execWait t ∧ σ.phase t ≠ .parked)
  off : ∀ t, σ.place t = .off → σ.phase t ≠ .parked ∧ σ.phase t ≠ .woken
  execPre : ∀ p w, σ.phase p = .execPre w → σ.place w = .under p
  execWait : ∀ p w, σ.phase p = .execWait w → σ.place w = .under p
  yielding : ∀ w p, σ.phase w = .yielding p → σ.place w = .under p
  posted : ∀ w p, σ.phase w = .posted p → σ.place w = .under p
  mem_queue : ∀ l w, w ∈ σ.queue l ↔ σ.place w = .queued l
  mem_rest : ∀ c w, w ∈ σ.rest c ↔ ∃ p, σ.place w = .batch p c
  nodup_queue : ∀ l, (σ.queue l).Nodup
  nodup_rest : ∀ c, (σ.rest c).Nodup
  count_handed : ∀ p w, (σ.ready p).count w + (σ.batches p).flatten.count w =
    if σ.place w = .handed p then 1 else 0

theorem inv_init : Inv (init : Handoff T L E) := by
  constructor <;> simp [init]

section Preservation

variable {σ : Handoff T L E}

theorem Inv.handed_of_mem (hI : Inv σ) (p w : T)
    (h : w ∈ σ.ready p ∨ w ∈ (σ.batches p).flatten) : σ.place w = .handed p := by
  have hc := hI.count_handed p w
  by_contra hn
  rw [if_neg hn] at hc
  rcases h with h | h
  · have hpos := List.count_pos_iff.mpr h
    omega
  · have hpos := List.count_pos_iff.mpr h
    omega

theorem Inv.handed_of_handle (hI : Inv σ) (p c : T) (h : IsHandle c (σ.batches p)) :
    σ.place c = .handed p := by
  apply hI.handed_of_mem
  exact Or.inr (isHandle_mem_flatten c _ h)

/-- Only a handle has anything behind it. -/
theorem Inv.not_behind (hI : Inv σ) (c w q : T) (h : ∀ p, σ.place c ≠ .handed p) :
    σ.place w ≠ .batch q c := by
  intro hw
  exact h q (hI.handed_of_handle q c (hI.batch w q c hw).2)

theorem Inv.not_executed (hI : Inv σ) (w : T) (h : ∀ p, σ.place w ≠ .under p) (p : T) :
    σ.phase p ≠ .execPre w ∧ σ.phase p ≠ .execWait w := by
  constructor
  · intro hp
    exact h p (hI.execPre p w hp)
  · intro hp
    exact h p (hI.execWait p w hp)

/-- A worker that runs for a scheduler is the one that the scheduler waits for. -/
theorem Inv.execWait_of_under (hI : Inv σ) {w p : T} (hu : σ.place w = .under p)
    (hw : σ.phase w ≠ .parked) : σ.phase p = .execWait w := by
  rcases hI.under w p hu with ⟨-, hpark⟩ | ⟨hwait, -⟩
  · exact absurd hpark hw
  · exact hwait

/-- A worker sleeps until the scheduler that executes it has woken it. -/
theorem Inv.parked_of_execPre (hI : Inv σ) {w p : T} (hp : σ.phase p = .execPre w) :
    σ.phase w = .parked := by
  rcases hI.under w p (hI.execPre p w hp) with ⟨-, hpark⟩ | ⟨hwait, -⟩
  · exact hpark
  · cases hp.symm.trans hwait

theorem Inv.phases (hI : Inv σ) : PhasesOk σ.phase σ.place :=
  ⟨hI.entering, hI.leaving, hI.under, hI.off, hI.execPre, hI.execWait, hI.yielding, hI.posted⟩

/-- A worker on one of the lists is parked. -/
theorem Inv.parked_of_listed (hI : Inv σ) (w : T) (h : (σ.place w).unlisted = false) :
    σ.phase w = .parked := by
  cases hw : σ.place w with
  | queued l => exact hI.queued w l hw
  | batch p c => exact (hI.batch w p c hw).1
  | handed p => exact hI.handed w p hw
  | off | entering | under | leaving =>
    rw [hw] at h
    cases h

/-- A worker in user code runs under a scheduler. -/
theorem Inv.under_of_active (hI : Inv σ) (w : T) (hp : σ.phase w = .active)
    (hl : σ.place w ≠ .off) : ∃ p, σ.place w = .under p := by
  have hlisted (hu : (σ.place w).unlisted = false) : False := by
    have hpark := hI.parked_of_listed w hu
    rw [hp] at hpark
    cases hpark
  cases hw : σ.place w with
  | under p => exact ⟨p, rfl⟩
  | off => exact absurd hw hl
  | entering => cases hp.symm.trans ((hI.entering w).mp hw)
  | leaving => cases hp.symm.trans ((hI.leaving w).mp hw)
  | queued | batch | handed => exact (hlisted (by rw [hw]; rfl)).elim

/-- The phases apart, the invariant is about the lists. -/
theorem Inv.of_phases (hphases : PhasesOk σ.phase σ.place)
    (hparked : ∀ w, (σ.place w).unlisted = false → σ.phase w = .parked)
    (hbatch : ∀ w p c, σ.place w = .batch p c → IsHandle c (σ.batches p))
    (hqueue : ∀ l w, w ∈ σ.queue l ↔ σ.place w = .queued l)
    (hrest : ∀ c w, w ∈ σ.rest c ↔ ∃ p, σ.place w = .batch p c)
    (hnq : ∀ l, (σ.queue l).Nodup) (hnr : ∀ c, (σ.rest c).Nodup)
    (hcount : ∀ p w, (σ.ready p).count w + (σ.batches p).flatten.count w =
      if σ.place w = .handed p then 1 else 0) : Inv σ := by
  have hlisted (w : T) (pl : Place T L) (hpl : pl.unlisted = false) (hw : σ.place w = pl) :
      σ.phase w = .parked := hparked w (by rw [hw, hpl])
  exact { hphases with
    queued := fun w l => hlisted w _ rfl
    batch := fun w p c hw => ⟨hlisted w _ rfl hw, hbatch w p c hw⟩
    handed := fun w p => hlisted w _ rfl
    mem_queue := hqueue
    mem_rest := hrest
    nodup_queue := hnq
    nodup_rest := hnr
    count_handed := hcount }

section Claims

omit [DecidableEq L]

theorem claim_self (p c : T) (cs : List T) : σ.claim p c cs c = .handed p := if_pos rfl

theorem claim_behind (p : T) {c w : T} {cs : List T} (hc : w ≠ c) (hw : w ∈ cs) :
    σ.claim p c cs w = .batch p c := (if_neg hc).trans (if_pos hw)

theorem claim_other (p : T) {c w : T} {cs : List T} (hw : w ∉ c :: cs) :
    σ.claim p c cs w = σ.place w := by
  rw [List.mem_cons, not_or] at hw
  exact (if_neg hw.1).trans (if_neg hw.2)

/-- Once `cs` is the rest behind `c`, that is what the places say. -/
theorem mem_rest_claim (rest : T → List T) (p c : T) (cs : List T) (hc : c ∉ cs)
    (hnone : ∀ w q, σ.place w ≠ .batch q c)
    (hrest : ∀ e w, e ≠ c → (w ∈ rest e ↔ w ∉ c :: cs ∧ ∃ q, σ.place w = .batch q e)) (e w : T) :
    w ∈ Function.update rest c cs e ↔ ∃ q, σ.claim p c cs w = .batch q e := by
  by_cases he : e = c
  · subst he
    rw [Function.update_self]
    constructor
    · intro hw
      have hwe : w ≠ e := fun h => hc (h ▸ hw)
      exact ⟨p, claim_behind p hwe hw⟩
    · rintro ⟨q, hq⟩
      by_contra hw
      by_cases hwe : w = e
      · subst hwe
        rw [claim_self] at hq
        cases hq
      · rw [claim_other p (by simp [hwe, hw])] at hq
        exact hnone w q hq
  · rw [Function.update_of_ne he, hrest e w he]
    by_cases hwc : w = c
    · subst hwc
      simp [claim_self]
    by_cases hw : w ∈ cs
    · simp [claim_behind p hwc hw, hw, Ne.symm he]
    · have hout : w ∉ c :: cs := by simp [hwc, hw]
      simp only [claim_other p hout, hout, not_false_iff, true_and]

end Claims

/-- The scheduler `p` gets the handle `c` with `cs` behind it, all of one place `pl` before. -/
theorem Inv.claimed (hI : Inv σ) (p c : T) (cs : List T) (pl : Place T L)
    (hlisted : pl.unlisted = false) (hhanded : ∀ q, pl ≠ .handed q)
    (hplace : ∀ w ∈ c :: cs, σ.place w = pl) (hnd : (c :: cs).Nodup)
    (queue : L → List T) (rest : T → List T) (batches : T → List (List T))
    (h : List (Obs T L E)) (hnq : ∀ l, (queue l).Nodup) (hnr : ∀ e, (rest e).Nodup)
    (hqueue : ∀ l w, w ∈ queue l ↔ w ∉ c :: cs ∧ σ.place w = .queued l)
    (hrest : ∀ e w, e ≠ c → (w ∈ rest e ↔ w ∉ c :: cs ∧ ∃ q, σ.place w = .batch q e))
    (hhandle : IsHandle c (batches p))
    (hkeep : ∀ q e w, w ∉ c :: cs → σ.place w = .batch q e → IsHandle e (batches q))
    (hcount : ∀ q w, (batches q).flatten.count w =
      (σ.batches q).flatten.count w + if q = p ∧ w = c then 1 else 0) :
    Inv { σ with
      place := σ.claim p c cs
      queue := queue
      rest := Function.update rest c cs
      batches := batches
      hist := h } := by
  obtain ⟨hc, hcs⟩ := List.nodup_cons.mp hnd
  have hplc : σ.place c = pl := hplace c List.mem_cons_self
  have hplcs (w : T) (hw : w ∈ cs) : σ.place w = pl := hplace w (List.mem_cons_of_mem c hw)
  -- nothing waits behind `c` yet
  have hnone (w q : T) : σ.place w ≠ .batch q c :=
    hI.not_behind c w q fun p => hplc ▸ hhanded p
  have hmoves (w : T) : σ.claim p c cs w = σ.place w ∨
      ((σ.place w).unlisted = false ∧ (σ.claim p c cs w).unlisted = false) := by
    by_cases hwc : w = c
    · subst hwc
      rw [claim_self, hplc]
      exact Or.inr ⟨hlisted, rfl⟩
    by_cases hw : w ∈ cs
    · rw [claim_behind p hwc hw, hplcs w hw]
      exact Or.inr ⟨hlisted, rfl⟩
    · exact Or.inl (claim_other p (by simp [hwc, hw]))
  refine .of_phases (hI.phases.relist hmoves) ?_ ?_ ?_ ?_ hnq ?_ ?_
  · intro w hw
    apply hI.parked_of_listed
    rcases hmoves w with he | ⟨hold, -⟩
    · exact he ▸ hw
    · exact hold
  · intro w q e hw
    by_cases hwc : w = c
    · subst hwc
      cases (claim_self p w cs).symm.trans hw
    by_cases hwcs : w ∈ cs
    · cases (claim_behind p hwc hwcs).symm.trans hw
      exact hhandle
    · have hout : w ∉ c :: cs := by simp [hwc, hwcs]
      exact hkeep q e w hout ((claim_other p hout).symm.trans hw)
  · intro l w
    rw [hqueue l w]
    by_cases hwc : w = c
    · subst hwc
      simp [claim_self]
    by_cases hwcs : w ∈ cs
    · simp [claim_behind p hwc hwcs, hwcs]
    · have hout : w ∉ c :: cs := by simp [hwc, hwcs]
      simp only [claim_other p hout, hout, not_false_iff, true_and]
  · exact mem_rest_claim rest p c cs hc hnone hrest
  · intro e
    show (Function.update rest c cs e).Nodup
    by_cases he : e = c
    · rw [he, Function.update_self]
      exact hcs
    · rw [Function.update_of_ne he]
      exact hnr e
  · intro q w
    show (σ.ready q).count w + (batches q).flatten.count w =
      if σ.claim p c cs w = .handed q then 1 else 0
    rw [hcount, ← Nat.add_assoc, hI.count_handed]
    by_cases hwc : w = c
    · subst hwc
      rw [if_neg (hplc ▸ hhanded q), claim_self]
      simp [eq_comm]
    have hno : ¬ (q = p ∧ w = c) := fun hq => hwc hq.2
    rw [if_neg hno, Nat.add_zero]
    by_cases hwcs : w ∈ cs
    · rw [claim_behind p hwc hwcs, if_neg (hplcs w hwcs ▸ hhanded q)]
      simp
    · rw [claim_other p (by simp [hwc, hwcs])]

/-- A worker that has left, or never had, a scheduler is queued. -/
theorem Inv.insert (hI : Inv σ) (t : T) (l : L) (h : List (Obs T L E))
    (ht : σ.phase t = .entering ∨ σ.phase t = .leaving) :
    Inv { σ with
      phase := Function.update σ.phase t .parked
      place := Function.update σ.place t (.queued l)
      queue := Function.update σ.queue l (σ.queue l ++ [t])
      hist := h } := by
  have hpl : σ.place t = .entering ∨ σ.place t = .leaving :=
    ht.imp (hI.entering t).mpr (hI.leaving t).mpr
  have hidle : (σ.phase t).paired = false := by rcases ht with ht | ht <;> rw [ht] <;> rfl
  -- the lists other than the queue of `l` have the same workers
  have hsame (pl : Place T L) (hold : pl.unlisted = false) (hne : Place.queued l ≠ pl) (w : T) :
      Function.update σ.place t (.queued l) w = pl ↔ σ.place w = pl := by
    by_cases hw : w = t
    · subst hw
      rw [Function.update_self]
      constructor
      · exact fun he => absurd he hne
      · rintro rfl
        rcases hpl with he | he <;> rw [he] at hold <;> cases hold
    · rw [Function.update_of_ne hw]
  refine .of_phases ?_ ?_ ?_ ?_ ?_ ?_ hI.nodup_rest ?_
  · have hfree (p : T) : σ.place t ≠ .under p := by rcases hpl with he | he <;> simp [he]
    apply hI.phases.move hfree hidle rfl <;> simp
  · intro w hw
    show Function.update σ.phase t .parked w = .parked
    by_cases hwt : w = t
    · rw [hwt, Function.update_self]
    · rw [Function.update_of_ne hwt]
      apply hI.parked_of_listed
      rw [← Function.update_of_ne hwt (.queued l) σ.place]
      exact hw
  · exact fun w p c hw => (hI.batch w p c ((hsame _ rfl (by simp) w).mp hw)).2
  · intro m w
    show w ∈ Function.update σ.queue l (σ.queue l ++ [t]) m ↔
      Function.update σ.place t (.queued l) w = .queued m
    by_cases hm : m = l
    · subst hm
      rw [Function.update_self, List.mem_append, List.mem_singleton, hI.mem_queue]
      by_cases hw : w = t
      · simp [hw]
      · simp [hw]
    · rw [Function.update_of_ne hm, hI.mem_queue, hsame _ rfl (by simp [Ne.symm hm])]
  · intro c w
    rw [hI.mem_rest]
    exact exists_congr fun p => (hsame _ rfl (by simp) w).symm
  · intro m
    show (Function.update σ.queue l (σ.queue l ++ [t]) m).Nodup
    by_cases hm : m = l
    · subst hm
      rw [Function.update_self]
      refine List.nodup_append.mpr ⟨hI.nodup_queue m, List.pairwise_singleton _ t, ?_⟩
      intro w hw u hu
      obtain rfl := List.mem_singleton.mp hu
      rintro rfl
      rw [hI.mem_queue] at hw
      rcases hpl with he | he <;> rw [he] at hw <;> cases hw
    · rw [Function.update_of_ne hm]
      exact hI.nodup_queue m
  · intro p w
    rw [hI.count_handed]
    exact if_congr (hsame _ rfl (by simp) w).symm rfl rfl

/-- The queue of `l` becomes the batch of `p` with handle `c`. -/
theorem Inv.dequeue (hI : Inv σ) (p : T) (l : L) (c : T) (cs : List T)
    (hq : σ.queue l = c :: cs) :
    Inv { σ with
      place := σ.claim p c cs
      queue := Function.update σ.queue l []
      rest := Function.update σ.rest c cs
      batches := Function.update σ.batches p ([c] :: σ.batches p) } := by
  have hmem (w : T) : w ∈ c :: cs ↔ σ.place w = .queued l := hq ▸ hI.mem_queue l w
  have hout (w : T) (hw : σ.place w ≠ .queued l) : w ∉ c :: cs := mt (hmem w).mp hw
  refine hI.claimed p c cs (.queued l) rfl (by simp) (fun w => (hmem w).mp)
    (hq ▸ hI.nodup_queue l) _ _ _ _ ?_ hI.nodup_rest ?_ ?_ ?_ ?_ ?_
  · intro m
    by_cases hm : m = l
    · simp [hm]
    · rw [Function.update_of_ne hm]
      exact hI.nodup_queue m
  · -- nobody is left in the queue of `l`
    intro m w
    by_cases hm : m = l
    · subst hm
      rw [Function.update_self]
      constructor
      · intro hw
        cases hw
      · exact fun hw => absurd ((hmem w).mpr hw.2) hw.1
    · rw [Function.update_of_ne hm, hI.mem_queue]
      constructor
      · exact fun hw => ⟨hout w (by simp [hw, hm]), hw⟩
      · exact And.right
  · intro e w _
    rw [hI.mem_rest]
    constructor
    · rintro ⟨q, hw⟩
      exact ⟨hout w (by simp [hw]), q, hw⟩
    · exact And.right
  · rw [Function.update_self]
    exact (isHandle_cons c _ _).mpr (Or.inl rfl)
  · intro q e w _ hw
    have hold := (hI.batch w q e hw).2
    by_cases hqp : q = p
    · subst hqp
      rw [Function.update_self]
      exact (isHandle_cons e _ _).mpr (Or.inr hold)
    · rw [Function.update_of_ne hqp]
      exact hold
  · intro q w
    by_cases hqp : q = p
    · subst hqp
      rw [Function.update_self, List.flatten_cons, List.count_append, List.count_singleton,
        Nat.add_comm]
      simp [@eq_comm T w]
    · rw [Function.update_of_ne hqp, if_neg (fun h => hqp h.1), Nat.add_zero]

/-- The batch with handle `c` returns `d`, its new handle. -/
theorem Inv.next (hI : Inv σ) (p c d : T) (ds : List T) (h : List (Obs T L E))
    (hc : IsHandle c (σ.batches p)) (hr : σ.rest c = d :: ds) :
    Inv { σ with
      place := σ.claim p d ds
      rest := Function.update (Function.update σ.rest c []) d ds
      batches := Function.update σ.batches p (handNext c d (σ.batches p))
      hist := h } := by
  have hcp := hI.handed_of_handle p c hc
  have hbehind (w : T) : w ∈ d :: ds ↔ ∃ q, σ.place w = .batch q c := hr ▸ hI.mem_rest c w
  -- a batch has one scheduler
  have hbatch (w q : T) (hw : σ.place w = .batch q c) : q = p := by
    have hcq := hI.handed_of_handle q c (hI.batch w q c hw).2
    rw [hcp, Place.handed.injEq] at hcq
    exact hcq.symm
  have hout (w : T) (hw : ∀ q, σ.place w ≠ .batch q c) : w ∉ d :: ds :=
    fun hmem => ((hbehind w).mp hmem).elim hw
  refine hI.claimed p d ds (.batch p c) rfl (by simp) ?_ (hr ▸ hI.nodup_rest c) _ _ _ _
    hI.nodup_queue ?_ ?_ ?_ ?_ ?_ ?_
  · intro w hw
    obtain ⟨q, hq⟩ := (hbehind w).mp hw
    rw [hq, hbatch w q hq]
  · intro e
    by_cases he : e = c
    · simp [he]
    · rw [Function.update_of_ne he]
      exact hI.nodup_rest e
  · intro l w
    rw [hI.mem_queue]
    constructor
    · exact fun hw => ⟨hout w (by simp [hw]), hw⟩
    · exact And.right
  · intro e w _
    by_cases he : e = c
    · subst he
      rw [Function.update_self]
      constructor
      · intro hw
        cases hw
      · exact fun hw => absurd ((hbehind w).mpr hw.2) hw.1
    · rw [Function.update_of_ne he, hI.mem_rest]
      constructor
      · rintro ⟨q, hw⟩
        exact ⟨hout w (by simp [hw, he]), q, hw⟩
      · exact And.right
  · rw [Function.update_self]
    exact isHandle_handNext c d d _ hc (Or.inl rfl)
  · intro q e w hnot hw
    have hold := (hI.batch w q e hw).2
    have hec : e ≠ c := by
      rintro rfl
      exact hnot ((hbehind w).mpr ⟨q, hw⟩)
    by_cases hqp : q = p
    · subst hqp
      rw [Function.update_self]
      exact isHandle_handNext c d e _ hc (Or.inr ⟨hec, hold⟩)
    · rw [Function.update_of_ne hqp]
      exact hold
  · intro q w
    by_cases hqp : q = p
    · subst hqp
      rw [Function.update_self, count_handNext c d w _ hc]
      simp [eq_comm]
    · rw [Function.update_of_ne hqp, if_neg (fun h => hqp h.1), Nat.add_zero]

/-- The batch with handle `c` is drained, and all of it may be executed. -/
theorem Inv.close (hI : Inv σ) (p c : T) (h : List (Obs T L E)) (hr : σ.rest c = []) :
    Inv { σ with
      batches := Function.update σ.batches p (closeBatch c (σ.batches p)).2
      ready := Function.update σ.ready p (σ.ready p ++ (closeBatch c (σ.batches p)).1)
      hist := h } := by
  have hnone (w q : T) : σ.place w ≠ .batch q c := by
    intro hw
    have hm := (hI.mem_rest c w).mpr ⟨q, hw⟩
    simp [hr] at hm
  refine .of_phases hI.phases hI.parked_of_listed ?_ hI.mem_queue hI.mem_rest hI.nodup_queue
    hI.nodup_rest ?_
  · intro w q e hw
    show IsHandle e (Function.update σ.batches p (closeBatch c (σ.batches p)).2 q)
    have hold := (hI.batch w q e hw).2
    by_cases hqp : q = p
    · subst hqp
      rw [Function.update_self]
      apply isHandle_closeBatch c e _ _ hold
      rintro rfl
      exact hnone w q hw
    · rw [Function.update_of_ne hqp]
      exact hold
  · intro q w
    simp only [Function.update_apply]
    rw [← hI.count_handed q w]
    by_cases hqp : q = p
    · subst hqp
      rw [if_pos rfl, if_pos rfl, List.count_append, ← count_closeBatch c w (σ.batches q)]
      omega
    · rw [if_neg hqp, if_neg hqp]

theorem Inv.exec (hI : Inv σ) (p w : T) (h : List (Obs T L E)) (hp : σ.phase p = .active)
    (hw : w ∈ σ.ready p) :
    Inv { σ with
      phase := Function.update σ.phase p (.execPre w)
      place := Function.update σ.place w (.under p)
      ready := Function.update σ.ready p ((σ.ready p).erase w)
      hist := h } := by
  have hh := hI.handed_of_mem p w (Or.inl hw)
  have hk := hI.handed w p hh
  have hpos := List.count_pos_iff.mpr hw
  -- but for what `p` was handed, every list has the same workers as before
  have hsame (pl : Place T L) (hpl : pl.unlisted = false) (hne : pl ≠ .handed p) (x : T) :
      Function.update σ.place w (.under p) x = pl ↔ σ.place x = pl := by
    by_cases hx : x = w
    · subst hx
      rw [Function.update_self, hh]
      constructor
      · rintro rfl
        cases hpl
      · exact fun he => absurd he.symm hne
    · rw [Function.update_of_ne hx]
  refine .of_phases (hI.phases.exec hp hh hk) ?_ ?_ ?_ ?_ hI.nodup_queue hI.nodup_rest ?_
  · intro x hx
    show Function.update σ.phase p (.execPre w) x = .parked
    have hxw : x ≠ w := by
      rintro rfl
      simp [Place.unlisted] at hx
    have hpark : σ.phase x = .parked := by
      apply hI.parked_of_listed
      rw [← Function.update_of_ne hxw (.under p) σ.place]
      exact hx
    rw [Function.update_of_ne, hpark]
    rintro rfl
    rw [hp] at hpark
    cases hpark
  · exact fun x q c hx => (hI.batch x q c ((hsame _ rfl (by simp) x).mp hx)).2
  · intro l x
    rw [hI.mem_queue]
    exact (hsame _ rfl (by simp) x).symm
  · intro c x
    rw [hI.mem_rest]
    exact exists_congr fun q => (hsame _ rfl (by simp) x).symm
  · intro q x
    show (Function.update σ.ready p ((σ.ready p).erase w) q).count x +
      (σ.batches q).flatten.count x =
        if Function.update σ.place w (.under p) x = .handed q then 1 else 0
    have hold := hI.count_handed q x
    by_cases hqp : q = p
    · subst hqp
      rw [Function.update_self, List.count_erase]
      by_cases hx : x = w
      · subst hx
        rw [if_pos hh] at hold
        simp only [Function.update_self, beq_self_eq_true, if_true]
        rw [if_neg (by simp)]
        omega
      · rw [Function.update_of_ne hx, ← hold]
        simp [Ne.symm hx]
    · rw [Function.update_of_ne hqp, if_congr (hsame _ rfl (by simp [hqp]) x) rfl rfl]
      exact hold

/-- A step that leaves the lists and the listed workers alone is a matter of the phases. -/
theorem Inv.rephase (hI : Inv σ) {σ' : Handoff T L E} (h : PhasesOk σ'.phase σ'.place)
    (hplace : ∀ w, σ'.place w = σ.place w ∨
      ((σ.place w).unlisted = true ∧ (σ'.place w).unlisted = true))
    (hphase : ∀ w, (σ.place w).unlisted = false → σ'.phase w = σ.phase w)
    (hqueue : σ'.queue = σ.queue) (hrest : σ'.rest = σ.rest) (hbatches : σ'.batches = σ.batches)
    (hready : σ'.ready = σ.ready) : Inv σ' := by
  have hlisted (w : T) (pl : Place T L) (hpl : pl.unlisted = false) :
      σ'.place w = pl ↔ σ.place w = pl := by
    apply place_eq_iff (hplace w)
    simp [hpl]
  refine .of_phases h ?_ ?_ ?_ ?_ (hqueue ▸ hI.nodup_queue) (hrest ▸ hI.nodup_rest) ?_
  · intro w hw
    have hu : (σ.place w).unlisted = false := by rw [(hlisted w _ hw).mp rfl, hw]
    rw [hphase w hu]
    exact hI.parked_of_listed w hu
  · intro t p c ht
    rw [hbatches]
    exact (hI.batch t p c ((hlisted t _ rfl).mp ht)).2
  · intro l w
    rw [hqueue, hI.mem_queue, hlisted w _ rfl]
  · intro c w
    rw [hrest, hI.mem_rest]
    exact exists_congr fun p => (hlisted w _ rfl).symm
  · intro p w
    rw [hready, hbatches, hI.count_handed]
    exact if_congr (hlisted w _ rfl).symm rfl rfl

theorem Inv.unlisted_of_phase (hI : Inv σ) (t : T) (ht : σ.phase t ≠ .parked) :
    (σ.place t).unlisted = true := by
  by_contra hu
  exact ht (hI.parked_of_listed t (Bool.eq_false_iff.mpr hu))

omit [DecidableEq L] in
/-- The phase of an unlisted thread is nothing to the listed ones. -/
theorem phase_of_listed {phase : T → Phase T} {t : T} (ht : (σ.place t).unlisted = true)
    (x : Phase T) (w : T) (hw : (σ.place w).unlisted = false) :
    Function.update phase t x w = phase w := by
  apply Function.update_of_ne
  rintro rfl
  rw [ht] at hw
  cases hw

omit [DecidableEq L] in
theorem place_of_unlisted {t : T} (ht : (σ.place t).unlisted = true) (x : Place T L)
    (hx : x.unlisted = true) (w : T) : Function.update σ.place t x w = σ.place w ∨
      ((σ.place w).unlisted = true ∧ (Function.update σ.place t x w).unlisted = true) := by
  by_cases hw : w = t
  · subst hw
    rw [Function.update_self]
    exact Or.inr ⟨ht, hx⟩
  · exact Or.inl (Function.update_of_ne hw _ _)

/-- Every step of a hand-over keeps every worker in one place. -/
theorem Inv.step {context : E → Option T} {σ' : Handoff T L E} (hI : Inv σ)
    (h : Step context σ σ') : Inv σ' := by
  cases h with
  | start p e hp he =>
    exact hI.rephase hI.phases (fun _ => .inl rfl) (fun _ _ => rfl) rfl rfl rfl rfl
  | enter t hp hl =>
    have ht := hI.unlisted_of_phase t (by simp [hp])
    refine hI.rephase ?_ (place_of_unlisted ht _ rfl) (phase_of_listed ht _) rfl rfl rfl rfl
    apply hI.phases.move <;> simp [hl, hp, Phase.paired]
  | insert t l ht => exact hI.insert t l _ ht
  | dequeue p l c cs hq => exact hI.dequeue p l c cs hq
  | next p c d ds hc hr => exact hI.next p c d ds _ hc hr
  | close p c hc hr => exact hI.close p c _ hr
  | exec p w hp hw hs => exact hI.exec p w _ hp hw
  | wake p w hp =>
    have hup := hI.unlisted_of_phase p (by simp [hp])
    have huw : (σ.place w).unlisted = true := by rw [hI.execPre p w hp]; rfl
    refine hI.rephase (hI.phases.wake hp) (fun _ => .inl rfl) (fun u hu => ?_) rfl rfl rfl rfl
    exact (phase_of_listed hup _ u hu).trans (phase_of_listed huw _ u hu)
  | resume w c hw hc =>
    have hu := hI.unlisted_of_phase w (by simp [hw])
    refine hI.rephase ?_ (fun _ => .inl rfl) (phase_of_listed hu _) rfl rfl rfl rfl
    apply hI.phases.loosen <;> simp [hw, Phase.loose]
  | yield w p hw hl =>
    have hu := hI.unlisted_of_phase w (by simp [hw])
    refine hI.rephase ?_ (fun _ => .inl rfl) (phase_of_listed hu _) rfl rfl rfl rfl
    apply hI.phases.loosen <;> simp [hw, hl, Phase.loose]
  | post w p e hw he =>
    have hu := hI.unlisted_of_phase w (by simp [hw])
    refine hI.rephase ?_ (fun _ => .inl rfl) (phase_of_listed hu _) rfl rfl rfl rfl
    apply hI.phases.loosen <;> simp [hw, hI.yielding w p hw, Phase.loose]
  | wakeSched w p hw =>
    have huw := hI.unlisted_of_phase w (by simp [hw])
    have hup : (σ.place p).unlisted = true := by
      -- the scheduler waits in its own call, so it is on no list
      rcases hI.under w p (hI.posted w p hw) with ⟨hp, -⟩ | ⟨hp, -⟩ <;>
        exact hI.unlisted_of_phase p (by simp [hp])
    refine hI.rephase (hI.phases.wakeSched hw) (place_of_unlisted huw _ rfl) (fun u hu => ?_)
      rfl rfl rfl rfl
    exact (phase_of_listed huw _ u hu).trans (phase_of_listed hup _ u hu)
  | execReturn p w hp =>
    have hu := hI.unlisted_of_phase p (by simp [hp])
    refine hI.rephase ?_ (fun _ => .inl rfl) (phase_of_listed hu _) rfl rfl rfl rfl
    apply hI.phases.loosen <;> simp [hp, Phase.loose]
  | destroy w hw =>
    have hu := hI.unlisted_of_phase w (by simp [hw])
    have hl := (hI.leaving w).mpr hw
    refine hI.rephase ?_ (place_of_unlisted hu _ rfl) (phase_of_listed hu _) rfl rfl rfl rfl
    apply hI.phases.move <;> simp [hw, hl, Phase.paired]
  | ret t c r hr =>
    exact hI.rephase hI.phases (fun _ => .inl rfl) (fun _ _ => rfl) rfl rfl rfl rfl

end Preservation

end Handoff

end LinuxUms
